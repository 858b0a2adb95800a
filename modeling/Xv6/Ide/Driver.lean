import Xv6.Bio.Order
import Xv6.Ide.Model

/-!
# The driver serves the cache

The queue holds the buffers of the processes inside `iderw` that are not served yet, in the order of their
calls, and the controller works for the first one. So nobody sleeps without a command under way, and a
run of the driver is a run of the cache in which the blocks are transferred at once.
-/

namespace Xv6.Ide

open Bio
open Function (update)

variable {ι β : Type} [DecidableEq ι] {havedisk1 : Bool} {s t : Driver ι β} {u v : Users ι β} {p q : ι}
  {i j : Fin NBUF} {qs : List (Fin NBUF)}

theorem registers_sector {b : Buffer β} (inside : b.blockno < FSSIZE) : (registers b).sector = b.blockno := by
  simp only [FSSIZE] at inside
  simp only [registers, Registers.sector]
  omega

theorem registers_disk {b : Buffer β} (first : b.dev < 2) : (registers b).disk = b.dev := by
  simp only [registers, Registers.disk]
  omega

/-! ### Steps in `bio.c` -/

/-- A locked buffer has one holder, and whoever waits for the disk holds the buffer. -/
structure Guarded (u : Users ι β) : Prop where
  locked : ∀ p, ∀ i ∈ u.held p, (u.cache.buf i).locked = true
  holder : ∀ p q, ∀ i ∈ u.held p, i ∈ u.held q → p = q
  nodup : ∀ p, (u.held p).Nodup
  waiting : ∀ p i, u.pc p = .waiting i → i ∈ u.held p

/-- Everything but the count of references. -/
def uncounted (b : Buffer β) : Buffer β := { b with refcnt := 0 }

theorem synced_congr {b c : Buffer β} (same : uncounted b = uncounted c) : synced b = synced c := by
  change synced (uncounted b) = synced (uncounted c)
  rw [same]

theorem command_congr {b c : Buffer β} (same : uncounted b = uncounted c) : command b = command c := by
  change command (uncounted b) = command (uncounted c)
  rw [same]

/-- What a step of `p` does: it leaves the buffers of the others alone, and a buffer that it takes to
the disk needs it. -/
structure Spares (u : Users ι β) (p : ι) (e : Bio.Event β) (v : Users ι β) : Prop where
  before : ∀ i, u.pc p ≠ .waiting i
  pc : ∀ q ≠ p, v.pc q = u.pc q
  disk : v.disk = u.disk
  buf : ∀ q ≠ p, ∀ i ∈ u.held q, uncounted (v.cache.buf i) = uncounted (u.cache.buf i)
  needs : ∀ i, v.pc p = .waiting i → synced (v.cache.buf i) = false
  block : ∀ i, (v.cache.buf i).dev = (u.cache.buf i).dev ∧ (v.cache.buf i).blockno = (u.cache.buf i).blockno ∨
    e = .bget (v.cache.buf i).dev (v.cache.buf i).blockno ∨ e = .bread (v.cache.buf i).dev (v.cache.buf i).blockno

theorem set_buf (c : Bcache β) (b : Buffer β) (i j : Fin NBUF) :
    (c.set i b).buf j = if j = i then b else c.buf j :=
  Function.update_apply ..

theorem put_buf (c : Bcache β) (i j : Fin NBUF) :
    (c.put i).buf j = if j = i then { c.buf i with refcnt := (c.buf i).refcnt - 1 } else c.buf j := by
  rw [← set_buf, Bcache.put]
  split <;> rfl

theorem call_ok {e : Bio.Event β} (guarded : Guarded u) (ring : ∃ l, u.cache.ring.Holds l ∧ ∀ i, i ∈ l)
    (referred : ∀ q, ∀ i ∈ u.held q, 0 < (u.cache.buf i).refcnt) (other : e ≠ .intr)
    (ran : u.step (p, e) = some v) : Guarded v ∧ Spares u p e v := by
  obtain ⟨locked, holder, nodup, waiting⟩ := guarded
  have assigned : ∀ {i b point}, b.locked = (u.cache.buf i).locked ∧ b.dev = (u.cache.buf i).dev ∧
      b.blockno = (u.cache.buf i).blockno → (∀ j, point = .waiting j → j = i ∧ synced b = false) →
      u.assign p i b point = some v → Guarded v ∧ Spares u p e v := by
    intro i b point same own assigned
    clear ran
    obtain ⟨here, member, rfl⟩ := Users.assign_ok assigned
    refine ⟨?_, ?_⟩ <;> constructor <;> grind [set_buf, Function.update_apply]
  have got : ∀ {dev blockno reads}, e = .bget dev blockno ∨ e = .bread dev blockno →
      u.get p dev blockno reads = some v → Guarded v ∧ Spares u p e v := by
    intro dev blockno reads asks got
    clear ran assigned
    obtain ⟨here, i, c, found, rfl⟩ := Users.get_ok got
    obtain ⟨l, holds, all⟩ := ring
    rcases bget_cases holds all found with ⟨_, _, rfl⟩ | ⟨_, free, _, rfl⟩
    · refine ⟨?_, ?_⟩ <;> constructor <;> grind [set_buf, uncounted, Function.update_apply]
    · -- a buffer without references is nobody's
      have unused : ∀ q, i ∉ u.held q := fun q member => (referred q i member).ne' free.1
      refine ⟨?_, ?_⟩ <;> constructor <;> grind [set_buf, Function.update_apply]
  cases e with
  | bget dev blockno => exact got (.inl rfl) ran
  | bread dev blockno => exact got (.inr rfl) ran
  | intr => exact absurd rfl other
  | modify i data => exact assigned (b := { u.cache.buf i with data := data }) ⟨rfl, rfl, rfl⟩ (by simp) ran
  | pin i => exact assigned (b := { u.cache.buf i with dirty := true }) ⟨rfl, rfl, rfl⟩ (by simp) ran
  | bwrite i =>
    refine assigned (b := { u.cache.buf i with dirty := true }) ⟨rfl, rfl, rfl⟩ (fun j is => ?_) ran
    exact ⟨(Pc.waiting.inj is).symm, by simp [synced]⟩
  | lock =>
    clear assigned got
    obtain ⟨i, reads, here, free, rfl⟩ := Users.lock_ok ran
    have fresh : ∀ q, i ∉ u.held q := fun q member => by
      rw [locked q i member] at free
      cases free
    refine ⟨?_, ?_⟩ <;> constructor <;> grind [set_buf, synced, Function.update_apply]
  | brelse i =>
    clear assigned got
    obtain ⟨here, held, rfl⟩ := Users.unlock_ok ran
    have mem : ∀ j, j ∈ (u.held p).erase i ↔ j ≠ i ∧ j ∈ u.held p := fun j => (nodup p).mem_erase_iff
    have shorter := (nodup p).erase i
    refine ⟨?_, ?_⟩ <;> constructor <;> grind [set_buf, Function.update_apply]
  | put =>
    clear assigned got
    obtain ⟨i, here, rfl⟩ := Users.put_ok ran
    refine ⟨?_, ?_⟩ <;> constructor <;> grind [put_buf, uncounted, Function.update_apply]

/-- A step of a process in `bio.c` reads no other process. -/
theorem step_own {e : Bio.Event β} {pc : ι → Pc} (here : pc p = u.pc p) (ran : u.step (p, e) = some v) :
    ({ u with pc := pc } : Users ι β).step (p, e) = some { v with pc := update pc p (v.pc p) } := by
  have assigned : ∀ {i b point}, u.assign p i b point = some v →
      ({ u with pc := pc } : Users ι β).assign p i b point = some { v with pc := update pc p (v.pc p) } := by
    intro i b point assigned
    obtain ⟨out, member, rfl⟩ := Users.assign_ok assigned
    simp [Users.assign, here, out, member]
  have got : ∀ {dev blockno reads}, u.get p dev blockno reads = some v →
      ({ u with pc := pc } : Users ι β).get p dev blockno reads = some { v with pc := update pc p (v.pc p) } := by
    intro dev blockno reads got
    obtain ⟨out, i, c, found, rfl⟩ := Users.get_ok got
    simp [Users.get, here, out, found]
  cases e with
  | bget | bread => exact got ran
  | modify | pin | bwrite => exact assigned ran
  | lock =>
    obtain ⟨i, reads, locking, free, rfl⟩ := Users.lock_ok ran
    simp [Users.step, Users.lock, here, locking, free]
  | intr =>
    obtain ⟨i, waiting, rfl⟩ := Users.intr_ok ran
    simp only [Users.step, Users.intr, here, waiting, Users.ideintr, Function.update_self]
    split <;> rfl
  | brelse i =>
    obtain ⟨out, member, rfl⟩ := Users.unlock_ok ran
    simp [Users.step, Users.unlock, Users.assign, here, out, member]
  | put =>
    obtain ⟨i, releasing, rfl⟩ := Users.put_ok ran
    simp [Users.step, Users.put, here, releasing]

/-! ### The queue -/

/-- The queue is `qs`. -/
structure Sound (havedisk1 : Bool) (s : Driver ι β) (qs : List (Fin NBUF)) : Prop where
  guarded : Guarded s.users
  cells : Chain.Cells s.qnext s.idequeue qs
  nodup : qs.Nodup
  queued : ∀ i ∈ qs, synced (s.users.cache.buf i) = false ∧ ∃ p, s.users.pc p = .waiting i ∧ s.stage p ≠ .entering
  entering : ∀ p i, s.users.pc p = .waiting i → s.stage p = .entering → synced (s.users.cache.buf i) = false
  inside : ∀ p i, s.users.pc p = .waiting i → s.stage p ≠ .entering →
    i ∈ qs ∨ synced (s.users.cache.buf i) = true ∧ s.stage p = .awake
  outside : ∀ p, (∀ i, s.users.pc p ≠ .waiting i) → s.stage p = .entering
  drive : s.drive = qs.head?.map fun i => command (s.users.cache.buf i)
  present : ∀ i, Present havedisk1 (s.users.cache.buf i).dev (s.users.cache.buf i).blockno

theorem Sound.call {e : Bio.Event β} (sound : Sound havedisk1 s qs) (guarded : Guarded v)
    (spares : Spares s.users p e v)
    (usual : ∀ dev blockno, e = .bget dev blockno ∨ e = .bread dev blockno → Present havedisk1 dev blockno) :
    Sound havedisk1 { s with users := v } qs := by
  have kept : ∀ {i q}, s.users.pc q = .waiting i →
      q ≠ p ∧ v.pc q = .waiting i ∧ uncounted (v.cache.buf i) = uncounted (s.users.cache.buf i) := by
    intro i q waiting
    have other : q ≠ p := fun same => spares.before i (same ▸ waiting)
    exact ⟨other, by rw [spares.pc q other, waiting], spares.buf q other i (sound.guarded.waiting q i waiting)⟩
  have still : ∀ {q i}, q ≠ p → v.pc q = .waiting i →
      s.users.pc q = .waiting i ∧ synced (v.cache.buf i) = synced (s.users.cache.buf i) := by
    intro q i other waiting
    rw [spares.pc q other] at waiting
    exact ⟨waiting, synced_congr (kept waiting).2.2⟩
  refine ⟨guarded, sound.cells, sound.nodup, ?_, ?_, ?_, ?_, ?_, ?_⟩
  · intro i member
    obtain ⟨needs, q, waiting, inside⟩ := sound.queued i member
    obtain ⟨_, waits, equal⟩ := kept waiting
    exact ⟨(synced_congr equal).trans needs, q, waits, inside⟩
  · intro q i waiting enters
    by_cases own : q = p
    · exact spares.needs i (own ▸ waiting)
    · obtain ⟨before, equal⟩ := still own waiting
      exact equal.trans (sound.entering q i before enters)
  · intro q i waiting inside
    have own : q ≠ p := fun same => inside (same ▸ sound.outside p spares.before)
    obtain ⟨before, equal⟩ := still own waiting
    rw [equal]
    exact sound.inside q i before inside
  · intro q outside
    refine sound.outside q fun i waiting => outside i (kept waiting).2.1
  · rw [sound.drive]
    cases qs with
    | nil => rfl
    | cons i rest =>
      obtain ⟨_, q, waiting, _⟩ := sound.queued i List.mem_cons_self
      exact congrArg some (command_congr (kept waiting).2.2).symm
  · intro i
    rcases spares.block i with ⟨dev, blockno⟩ | asks
    · rw [dev, blockno]
      exact sound.present i
    · exact usual _ _ asks

omit [DecidableEq ι] in
theorem enqueue_ok (cells : Chain.Cells s.qnext s.idequeue qs) (nodup : qs.Nodup) (fresh : i ∉ qs) :
    ∃ qnext, s.enqueue i = .ok { s with qnext := qnext, idequeue := (qs ++ [i]).head? } ∧
      Chain.Cells qnext (qs ++ [i]).head? (qs ++ [i]) := by
  have cleared : Chain.Cells (update s.qnext i none) s.idequeue qs :=
    cells.congr fun j member => Function.update_of_ne (ne_of_mem_of_not_mem member fresh) _ _
  rcases List.eq_nil_or_concat' qs with rfl | ⟨l, z, rfl⟩
  · refine ⟨update s.qnext i none, ?_, rfl, Function.update_self ..⟩
    rw [Driver.enqueue, show s.idequeue = none from cells]
    rfl
  · have first : s.idequeue = (l ++ [z] ++ [i]).head? := by
      cases l with
      | nil => exact cells.1
      | cons a l => exact cells.1
    have long : l.length < NBUF := by simpa [Nat.succ_le_iff] using nodup.length_le_card
    have whole := cleared.concat nodup fresh (Function.update_self ..)
    refine ⟨_, ?_, first ▸ whole⟩
    obtain ⟨a, start⟩ : ∃ a, s.idequeue = some a := by
      rw [first]
      simp
    have walked : Chain.climb (update s.qnext i none) NBUF a = some z := Chain.Cells.climb (start ▸ cleared) long
    simp only [← first, Driver.enqueue, start, walked]

/-- **`iderw`** puts the buffer at the end of the queue and does not panic. -/
theorem Sound.iderw (sound : Sound havedisk1 s qs) (waiting : s.users.pc p = .waiting i)
    (enters : s.stage p = .entering) :
    ∃ t, s.iderw havedisk1 p i = .ok t ∧ t.users = s.users ∧ Sound havedisk1 t (qs ++ [i]) := by
  have needs := sound.entering p i waiting enters
  have held := sound.guarded.waiting p i waiting
  obtain ⟨_, small, there⟩ := sound.present i
  have fresh : i ∉ qs := by
    intro member
    obtain ⟨_, q, waits, inside⟩ := sound.queued i member
    exact inside (sound.guarded.holder p q i held (sound.guarded.waiting q i waits) ▸ enters)
  obtain ⟨qnext, queued, cells⟩ := enqueue_ok sound.cells sound.nodup fresh
  refine ⟨{ s with
    stage := update s.stage p .asleep
    qnext := qnext
    idequeue := (qs ++ [i]).head?
    drive := (qs ++ [i]).head?.map fun i => command (s.users.cache.buf i) }, ?_, rfl, ?_⟩
  · have two : ¬((s.users.cache.buf i).dev ≠ 0 ∧ havedisk1 = false) := fun both => by
      simp [there both.1] at both
    have drive := sound.drive
    rw [Driver.iderw, if_neg (by simp [held]), needs, if_neg Bool.false_ne_true, if_neg two, queued]
    -- the controller gets a command when the queue was empty
    cases qs with
    | nil => simp [Driver.idestart, drive, small.not_ge, bind, Except.bind]
    | cons a rest =>
      have other : a ≠ i := fun same => fresh (same ▸ List.mem_cons_self)
      simp [other, drive, bind, Except.bind]
  · obtain ⟨guarded, _, nodup, queued, entering, inside, outside, _, present⟩ := sound
    refine ⟨guarded, cells, ?_, ?_, ?_, ?_, ?_, rfl, present⟩
    · exact List.nodup_append.mpr ⟨nodup, List.nodup_singleton i, by grind⟩
    all_goals grind [Function.update_apply]

omit [DecidableEq ι] in
theorem ideintr_pc (u : Users ι β) (i : Fin NBUF) : (u.ideintr i).pc = u.pc := by
  unfold Users.ideintr
  dsimp only
  split <;> rfl

omit [DecidableEq ι] in
theorem ideintr_buf (u : Users ι β) (i j : Fin NBUF) : (u.ideintr i).cache.buf j =
    if j = i then
      { u.cache.buf i with
        valid := true
        dirty := false
        data := if (u.cache.buf i).dirty then (u.cache.buf i).data
          else u.disk (u.cache.buf i).dev (u.cache.buf i).blockno }
    else u.cache.buf j := by
  unfold Users.ideintr
  dsimp only
  split <;> simp_all [set_buf]

omit [DecidableEq ι] in
/-- **`ideintr`** completes the first buffer of the queue and starts the next one. -/
theorem ideintr_ok {rest : List (Fin NBUF)} (sound : Sound havedisk1 s (i :: rest)) :
    s.ideintr (command (s.users.cache.buf i)) true = .ok
      { users := s.users.ideintr i
        stage := fun q => if s.stage q = .asleep ∧ s.users.pc q = .waiting i then .awake else s.stage q
        qnext := s.qnext
        idequeue := rest.head?
        drive := rest.head?.map fun j => command ((s.users.ideintr i).cache.buf j) } := by
  obtain ⟨first, small, _⟩ := sound.present i
  have next : s.qnext i = rest.head? := sound.cells.2.head
  have users : s.users.ideintr i = { s.users with
      disk := Driver.perform s.users.disk (command (s.users.cache.buf i))
      cache := s.users.cache.set i { s.users.cache.buf i with
        valid := true
        dirty := false
        data := if (s.users.cache.buf i).dirty = false ∧ true then
          Driver.perform s.users.disk (command (s.users.cache.buf i)) (command (s.users.cache.buf i)).1.disk
            (command (s.users.cache.buf i)).1.sector
          else (s.users.cache.buf i).data } } := by
    unfold Users.ideintr
    cases dirty : (s.users.cache.buf i).dirty <;>
      simp [Driver.perform, command, dirty, registers_disk first, registers_sector small]
  rw [users]
  unfold Driver.ideintr
  rw [show s.idequeue = some i from sound.cells.1]
  cases rest with
  | nil => simp [Driver.wakeup, next]
  | cons j rest =>
    have other : j ≠ i := fun same => (List.nodup_cons.mp sound.nodup).1 (same ▸ List.mem_cons_self)
    have inside : (s.users.cache.buf j).blockno < FSSIZE := (sound.present j).2.1
    simp [Driver.wakeup, next, Driver.idestart, set_buf, other, inside]

omit [DecidableEq ι] in
theorem Sound.ideintr {rest : List (Fin NBUF)} (sound : Sound havedisk1 s (i :: rest))
    (ran : s.ideintr (command (s.users.cache.buf i)) true = .ok t) :
    Sound havedisk1 t rest ∧ t.users = s.users.ideintr i := by
  obtain rfl := Except.ok.inj ((ideintr_ok sound).symm.trans ran)
  have held : (s.users.ideintr i).held = s.users.held := by
    unfold Users.ideintr
    dsimp only
    split <;> rfl
  have next := sound.cells.2
  obtain ⟨⟨locked, holder, once, waiting⟩, _, nodup, queued, entering, inside, outside, _, present⟩ := sound
  refine ⟨⟨⟨?_, ?_, ?_, ?_⟩, next.head ▸ next, (List.nodup_cons.mp nodup).2, ?_, ?_, ?_, ?_, rfl, ?_⟩, rfl⟩
  all_goals simp only [ideintr_pc, held, ideintr_buf]
  case refine_7 =>
    intro q j waits entered
    by_cases served : j = i
    · -- the sleeper has just been woken, or has been awake before
      cases stage : s.stage q <;> simp_all [synced]
    · rw [if_neg served]
      grind
  all_goals grind [synced]

theorem Sound.rouse (sound : Sound havedisk1 s qs) (sleeps : s.stage p = .asleep) :
    Sound havedisk1 { s with stage := update s.stage p .awake } qs := by
  obtain ⟨guarded, cells, nodup, queued, entering, inside, outside, drive, present⟩ := sound
  refine ⟨guarded, cells, nodup, ?_, ?_, ?_, ?_, drive, present⟩
  all_goals grind [Function.update_apply]

theorem Sound.recheck (sound : Sound havedisk1 s qs) (waits : s.users.pc p = .waiting i)
    (awake : s.stage p = .awake) : Sound havedisk1 (s.recheck p i) qs := by
  obtain ⟨⟨locked, holder, once, waiting⟩, cells, nodup, queued, entering, inside, outside, drive, present⟩ := sound
  unfold Driver.recheck
  split
  next done =>
    refine ⟨⟨locked, holder, once, ?_⟩, cells, nodup, fun j member => ?_, ?_, ?_, ?_, drive, present⟩
    case refine_2 =>
      obtain ⟨needs, q, asks, within⟩ := queued j member
      have other : q ≠ p := by
        rintro rfl
        obtain rfl := Pc.waiting.inj (waits.symm.trans asks)
        rw [done] at needs
        cases needs
      exact ⟨needs, q, by simp [other, asks], by simp [other, within]⟩
    all_goals grind [Function.update_apply]
  · refine ⟨⟨locked, holder, once, waiting⟩, cells, nodup, ?_, ?_, ?_, ?_, drive, present⟩
    all_goals grind [Function.update_apply]

/-! ### The driver and the cache above it -/

/-- Where the cache has a process: out of `iderw` once its block is transferred. -/
def settled (c : Bcache β) : Pc → Pc
  | .waiting i => if synced (c.buf i) then .out else .waiting i
  | point => point

def Driver.view (s : Driver ι β) : Users ι β :=
  { s.users with pc := fun p => settled s.users.cache (s.users.pc p) }

theorem settled_eq {c : Bcache β} {point : Pc} (needs : ∀ i, point = .waiting i → synced (c.buf i) = false) :
    settled c point = point := by
  cases point with
  | waiting i => simp [settled, needs i rfl]
  | out | locking | releasing => rfl

theorem settled_congr {c c' : Bcache β} {point : Pc}
    (same : ∀ i, point = .waiting i → synced (c'.buf i) = synced (c.buf i)) : settled c' point = settled c point := by
  cases point with
  | waiting i => simp [settled, same i rfl]
  | out | locking | releasing => rfl

theorem view_call {e : Bio.Event β} (guarded : Guarded s.users) (spares : Spares s.users p e v)
    (ran : s.users.step (p, e) = some v) : s.view.step (p, e) = some { s with users := v }.view := by
  have here : s.view.pc p = s.users.pc p := settled_eq fun i waiting => absurd waiting (spares.before i)
  have pcs : update s.view.pc p (v.pc p) = fun q => settled v.cache (v.pc q) := by
    funext q
    by_cases same : q = p
    · subst same
      rw [Function.update_self, settled_eq spares.needs]
    · rw [Function.update_of_ne same, spares.pc q same]
      refine (settled_congr fun i waiting => ?_).symm
      exact synced_congr (spares.buf q same i (guarded.waiting q i waiting))
  have own := step_own here ran
  rw [pcs] at own
  exact own

theorem view_ideintr (guarded : Guarded s.users) (waiting : s.users.pc p = .waiting i)
    (needs : synced (s.users.cache.buf i) = false) (users : t.users = s.users.ideintr i) :
    s.view.step (p, .intr) = some t.view := by
  have pcs : update s.view.pc p .out = t.view.pc := by
    funext q
    change _ = settled t.users.cache (t.users.pc q)
    rw [users, ideintr_pc]
    by_cases same : q = p
    · subst same
      rw [Function.update_self, waiting]
      simp [settled, ideintr_buf, synced]
    · rw [Function.update_of_ne same]
      refine (settled_congr fun j waits => ?_).symm
      have other : j ≠ i := by
        rintro rfl
        exact same (guarded.holder q p j (guarded.waiting q j waits) (guarded.waiting p j waiting))
      rw [ideintr_buf, if_neg other]
  have view : s.view.pc p = .waiting i := by simp [Driver.view, waiting, settled, needs]
  simp only [Users.step, Users.intr, view, pcs]
  change some { s.view.ideintr i with pc := t.view.pc } = some { t.users with pc := t.view.pc }
  rw [users, Users.ideintr, Users.ideintr]
  cases dirty : (s.users.cache.buf i).dirty <;> simp [Driver.view, dirty]

theorem view_recheck (waiting : s.users.pc p = .waiting i) : (s.recheck p i).view = s.view := by
  unfold Driver.recheck
  split
  next done =>
    have pcs : (fun q => settled s.users.cache (update s.users.pc p .out q)) = s.view.pc := by
      funext q
      by_cases same : q = p
      · subst same
        simp [Driver.view, settled, waiting, done]
      · simp [Driver.view, same]
    exact congrArg (fun pc => ({ s.users with pc := pc } : Users ι β)) pcs
  · rfl

/-- The cache is in a state that `bio.c` reaches when blocks are transferred at once. -/
def Refines (s : Driver ι β) : Prop :=
  ∃ clock stamp, (stamping ι β).Reach System.Any { users := s.view, clock := clock, stamp := stamp }

theorem Refines.congr (refines : Refines s) (same : t.view = s.view) : Refines t := by
  unfold Refines
  rw [same]
  exact refines

theorem Refines.step {label : ι × Bio.Event β} (refines : Refines s) (ran : s.view.step label = some t.view) :
    Refines t := by
  obtain ⟨clock, stamp, reach⟩ := refines
  obtain ⟨clock', stamp', stamped⟩ : ∃ clock' stamp',
      stampedWith { users := s.view, clock := clock, stamp := stamp } t.view (s.view.pc label.1) label.2 =
        { users := t.view, clock := clock', stamp := stamp' } := by
    unfold stampedWith
    split <;> exact ⟨_, _, rfl⟩
  refine ⟨clock', stamp', reach.step trivial (a := label) ?_⟩
  rw [← stamped]
  exact congrArg (Option.map _) ran

variable [Fintype ι] {r w : Record ι β}

theorem Refines.ring (refines : Refines s) : (∃ l, s.users.cache.ring.Holds l ∧ ∀ i, i ∈ l) ∧
    ∀ q, ∀ i ∈ s.users.held q, 0 < (s.users.cache.buf i).refcnt := by
  obtain ⟨clock, stamp, reach⟩ := refines
  have ordered : Ordered { users := s.view, clock := clock, stamp := stamp } := by
    refine reach.invariant (P := Ordered) ?_ fun _ _ _ ordered _ => ordered_step ordered
    rintro s ⟨fresh, _, stamps⟩
    exact ordered_init fresh stamps
  obtain ⟨l, holds, all, _⟩ := ordered.ring
  exact ⟨⟨l, holds, all⟩, fun q i member => refcnt_pos ordered.counted (p := q) (List.mem_append_right _ member)⟩

/-- What every run keeps. -/
structure Kept (havedisk1 : Bool) (r : Record ι β) (qs : List (Fin NBUF)) : Prop where
  sound : Sound havedisk1 r.driver qs
  order : r.asked = r.served ++ qs
  refines : Refines r.driver

omit [Fintype ι] in
theorem kept_ideintr {rest : List (Fin NBUF)} (kept : Kept havedisk1 r (i :: rest)) :
    ∃ w, (driver ι β havedisk1).step r (.ideintr true) = some w ∧ Kept havedisk1 w rest ∧
      w.driver.users = r.driver.users.ideintr i := by
  obtain ⟨sound, order, refines⟩ := kept
  obtain ⟨t, ran⟩ : ∃ t, r.driver.ideintr _ true = .ok t := ⟨_, ideintr_ok sound⟩
  obtain ⟨after, users⟩ := sound.ideintr ran
  obtain ⟨needs, p, waiting, _⟩ := sound.queued i List.mem_cons_self
  refine ⟨{ driver := t, asked := r.asked, served := r.served ++ [i] }, ?_, ⟨after, ?_, ?_⟩, users⟩
  · simp [driver, step, sound.drive, ran, asked, served, show r.driver.idequeue = some i from sound.cells.1,
      Except.toOption]
  · simpa using order
  · exact refines.step (view_ideintr sound.guarded waiting needs users)

theorem kept_step {e : Event ι β} (kept : Kept havedisk1 r qs) (usual : Usual havedisk1 r e)
    (ran : (driver ι β havedisk1).step r e = some w) : ∃ rest, Kept havedisk1 w rest := by
  obtain ⟨sound, order, refines⟩ := id kept
  obtain ⟨t, stepped, rfl⟩ := Option.map_eq_some_iff.mp ran
  cases e with
  | call p e =>
    by_cases other : e = .intr
    · subst other
      cases stepped
    · obtain ⟨v, called, rfl⟩ : ∃ v, r.driver.users.step (p, e) = some v ∧ { r.driver with users := v } = t := by
        cases e <;> first | exact absurd rfl other | exact Option.map_eq_some_iff.mp stepped
      obtain ⟨ring, referred⟩ := refines.ring
      obtain ⟨guarded, spares⟩ := call_ok sound.guarded ring referred other called
      refine ⟨qs, sound.call guarded spares ?_, by simpa [asked, served] using order,
        refines.step (view_call sound.guarded spares called)⟩
      rintro dev blockno (rfl | rfl) <;> exact usual
  | iderw p =>
    simp only [step] at stepped
    split at stepped
    next i waiting enters =>
      obtain ⟨t', done, users, after⟩ := sound.iderw waiting enters
      rw [done] at stepped
      obtain rfl := Option.some.inj stepped
      refine ⟨_, after, by simp [asked, served, waiting, order], refines.congr ?_⟩
      simp only [Driver.view, users]
    · cases stepped
  | ideintr ok =>
    obtain rfl : ok = true := usual
    cases qs with
    | nil => simp [step, sound.drive] at stepped
    | cons i rest =>
      obtain ⟨w, again, after, _⟩ := kept_ideintr kept
      rw [again] at ran
      exact ⟨rest, Option.some.inj ran ▸ after⟩
  | rouse p =>
    obtain ⟨sleeps, same⟩ := Option.ite_none_right_eq_some.mp stepped
    obtain rfl := Option.some.inj same
    exact ⟨qs, sound.rouse sleeps, by simpa [asked, served] using order, refines⟩
  | wake p =>
    simp only [step] at stepped
    split at stepped
    next i waiting awake =>
      obtain rfl := Option.some.inj stepped
      exact ⟨qs, sound.recheck waiting awake, by simpa [asked, served] using order,
        refines.congr (view_recheck waiting)⟩
    · cases stepped

theorem kept_reach (reach : (driver ι β havedisk1).Reach (Usual havedisk1) r) : ∃ qs, Kept havedisk1 r qs := by
  refine reach.invariant (P := fun r => ∃ qs, Kept havedisk1 r qs) ?_ fun r e w kept usual ran => ?_
  case refine_2 =>
    obtain ⟨qs, kept⟩ := kept
    exact kept_step kept usual ran
  rintro r ⟨fresh, stages, empty, idle, asked, served⟩
  obtain ⟨c, zeroed, cache⟩ := fresh.cache
  have buf : ∀ i, r.driver.users.cache.buf i = c.buf i := fun i => by rw [cache]; rfl
  have view : r.driver.view = r.driver.users := by
    have pcs : r.driver.view.pc = r.driver.users.pc := funext fun p => settled_eq (by simp [fresh.pc])
    exact congrArg (fun pc => ({ r.driver.users with pc := pc } : Users ι β)) pcs
  refine ⟨[], ⟨⟨?_, ?_, ?_, ?_⟩, empty, List.nodup_nil, ?_, ?_, ?_, fun p _ => stages p, idle, fun i => ?_⟩, ?_, ?_⟩
  case refine_8 =>
    rw [buf, (zeroed.buf i).2.2.1, (zeroed.buf i).2.2.2.1]
    exact ⟨by decide, by decide, fun other => absurd rfl other⟩
  case refine_10 => exact ⟨0, fun _ => 0, .init ⟨view ▸ fresh, rfl, fun _ => rfl⟩⟩
  all_goals simp [fresh.held, fresh.pc, asked, served]

/-- **Refinement.** -/
theorem driver_refines_cache (reach : (driver ι β havedisk1).Reach (Usual havedisk1) r) : Refines r.driver := by
  obtain ⟨qs, kept⟩ := kept_reach reach
  exact kept.refines

/-- The cache after `binit`, and the driver after `ideinit`. -/
def started : Record (Fin 2) Nat where
  driver :=
    { users := booted.users
      stage := fun _ => .entering
      qnext := fun _ => none
      idequeue := none
      drive := none }
  asked := []
  served := []

theorem started_init {havedisk1 : Bool} : (driver (Fin 2) Nat havedisk1).init started :=
  ⟨⟨⟨_, ⟨fun _ => ⟨rfl, rfl, rfl, rfl, rfl, rfl⟩⟩, rfl⟩, fun _ => rfl, fun _ => rfl⟩, fun _ => rfl, rfl, rfl, rfl, rfl⟩

/-- Both processes read a block, and the driver has their buffers. -/
def reading : List (Event (Fin 2) Nat) :=
  [.call 0 (.bread 1 5), .call 0 .lock, .iderw 0, .call 1 (.bread 1 6), .call 1 .lock, .iderw 1]

/-- The first block has come, but its process has not noticed. -/
theorem driver_refines_cache_served : ∃ r, (driver (Fin 2) Nat true).Reach (Usual true) r ∧
    r.driver.users.pc 0 = .waiting 0 ∧ (r.driver.users.cache.buf 0).valid = true ∧ Refines r.driver := by
  obtain ⟨r, reach, found⟩ := System.Reach.of_exec (S := driver (Fin 2) Nat true) (Usual true)
    (reading ++ [.ideintr true]) started_init
    (P := fun r => r.driver.users.pc 0 = .waiting 0 ∧ (r.driver.users.cache.buf 0).valid = true) (by decide +kernel)
  obtain ⟨waiting, valid⟩ := of_decide_eq_true found
  exact ⟨r, reach, waiting, valid, driver_refines_cache reach⟩

/-- The requests not served yet are the queue, and the controller works for the first of them. -/
def InOrder (r : Record ι β) : Prop :=
  ∃ qs, r.asked = r.served ++ qs ∧ Chain.Cells r.driver.qnext r.driver.idequeue qs ∧ qs.Nodup ∧
    r.driver.drive = qs.head?.map fun i => command (r.driver.users.cache.buf i)

/-- **First come, first served.** -/
theorem requests_in_order (reach : (driver ι β havedisk1).Reach (Usual havedisk1) r) : InOrder r := by
  obtain ⟨qs, sound, order, _⟩ := kept_reach reach
  exact ⟨qs, order, sound.cells, sound.nodup, sound.drive⟩

theorem requests_in_order_second : ∃ r, (driver (Fin 2) Nat true).Reach (Usual true) r ∧ r.asked = [0, 1] ∧
    r.served = [0] ∧ InOrder r := by
  obtain ⟨r, reach, found⟩ := System.Reach.of_exec (S := driver (Fin 2) Nat true) (Usual true)
    (reading ++ [.ideintr true]) started_init (P := fun r => r.asked = [0, 1] ∧ r.served = [0]) (by decide +kernel)
  obtain ⟨asked, served⟩ := of_decide_eq_true found
  exact ⟨r, reach, asked, served, requests_in_order reach⟩

/-- **No panic.** The calls of `iderw` and the interrupts of the controller go through. -/
theorem driver_never_panics (reach : (driver ι β havedisk1).Reach (Usual havedisk1) r) :
    (∀ p i, r.driver.users.pc p = .waiting i → r.driver.stage p = .entering →
      ∃ t, r.driver.iderw havedisk1 p i = .ok t) ∧
    ∀ c, r.driver.drive = some c → ∃ t, r.driver.ideintr c true = .ok t := by
  obtain ⟨qs, sound, _⟩ := kept_reach reach
  refine ⟨fun p i waiting enters => ?_, fun c busy => ?_⟩
  · obtain ⟨t, ran, _⟩ := sound.iderw waiting enters
    exact ⟨t, ran⟩
  · rw [sound.drive] at busy
    cases qs with
    | nil => cases busy
    | cons i rest =>
      obtain rfl := Option.some.inj busy
      exact ⟨_, ideintr_ok sound⟩

theorem driver_never_panics_busy : ∃ r, (driver (Fin 2) Nat true).Reach (Usual true) r ∧
    r.driver.users.pc 1 = .waiting 1 ∧ r.driver.stage 1 = .entering ∧ r.driver.idequeue = some 0 ∧
    ∃ t, r.driver.iderw true 1 1 = .ok t := by
  obtain ⟨r, reach, found⟩ := System.Reach.of_exec (S := driver (Fin 2) Nat true) (Usual true) (reading.take 5)
    started_init
    (P := fun r => r.driver.users.pc 1 = .waiting 1 ∧ r.driver.stage 1 = .entering ∧ r.driver.idequeue = some 0)
    (by decide +kernel)
  obtain ⟨waiting, enters, busy⟩ := of_decide_eq_true found
  exact ⟨r, reach, waiting, enters, busy, (driver_never_panics reach).1 1 1 waiting enters⟩

omit [Fintype ι] in
/-- Interrupts reach every buffer of the queue. -/
theorem served_after {front back : List (Fin NBUF)} (kept : Kept havedisk1 r (front ++ i :: back)) :
    ∃ w, (driver ι β havedisk1).exec System.Any (List.replicate (front.length + 1) (.ideintr true)) r = some w ∧
      Kept havedisk1 w back ∧ w.driver.users.pc = r.driver.users.pc ∧
      synced (w.driver.users.cache.buf i) = true := by
  induction front generalizing r with
  | nil =>
    obtain ⟨w, stepped, after, users⟩ := kept_ideintr kept
    refine ⟨w, ?_, after, ?_, ?_⟩
    · simp [System.exec, System.Any, stepped]
    · rw [users, ideintr_pc]
    · rw [users, ideintr_buf, if_pos rfl]
      rfl
  | cons j front ih =>
    obtain ⟨v, stepped, after, users⟩ := kept_ideintr kept
    obtain ⟨w, ran, last, pc, done⟩ := ih after
    refine ⟨w, ?_, last, ?_, done⟩
    · rw [List.length_cons, List.replicate_succ, System.exec, if_pos (show System.Any _ _ from trivial), stepped]
      exact ran
    · rw [pc, users, ideintr_pc]

/-- At most `NBUF` interrupts later the process goes on with its block. -/
def Served (havedisk1 : Bool) (r : Record ι β) (p : ι) (i : Fin NBUF) : Prop :=
  ∃ n ≤ NBUF, ∃ w x, (driver ι β havedisk1).exec System.Any (List.replicate n (.ideintr true)) r = some w ∧
    (driver ι β havedisk1).step w (.wake p) = some x ∧ x.driver.users.pc p = .out ∧
    synced (x.driver.users.cache.buf i) = true

/-- **No lost wakeup.** -/
theorem sleeper_served (reach : (driver ι β havedisk1).Reach (Usual havedisk1) r)
    (waiting : r.driver.users.pc p = .waiting i) (inside : r.driver.stage p ≠ .entering) :
    Served havedisk1 r p i := by
  obtain ⟨qs, kept⟩ := kept_reach reach
  obtain ⟨n, few, w, rest, ran, after, pc, done⟩ : ∃ n ≤ NBUF, ∃ w rest,
      (driver ι β havedisk1).exec System.Any (List.replicate n (.ideintr true)) r = some w ∧
      Kept havedisk1 w rest ∧ w.driver.users.pc p = .waiting i ∧ synced (w.driver.users.cache.buf i) = true := by
    rcases kept.sound.inside p i waiting inside with queued | ⟨done, _⟩
    · obtain ⟨front, back, rfl⟩ := List.append_of_mem queued
      obtain ⟨w, ran, after, pc, done⟩ := served_after kept
      have few : front.length + 1 ≤ NBUF := by
        have all : _ ≤ Fintype.card (Fin NBUF) := kept.sound.nodup.length_le_card
        simp only [List.length_append, List.length_cons, Fintype.card_fin] at all
        omega
      exact ⟨_, few, w, back, ran, after, by rw [pc, waiting], done⟩
    · exact ⟨0, Nat.zero_le _, r, qs, rfl, kept, waiting, done⟩
  have awake : w.driver.stage p = .awake := by
    cases stage : w.driver.stage p with
    | awake => rfl
    | entering => simp [after.sound.entering p i pc stage] at done
    | asleep =>
      rcases after.sound.inside p i pc (by simp [stage]) with queued | ⟨_, awake⟩
      · simp [(after.sound.queued i queued).1] at done
      · exact stage.symm.trans awake
  refine ⟨n, few, w, { w with driver := w.driver.recheck p i }, ran, ?_, ?_, ?_⟩
  · simp [driver, step, pc, awake, asked, served]
  · simp [Driver.recheck, done]
  · simp [Driver.recheck, done]

theorem sleeper_served_second : ∃ r, (driver (Fin 2) Nat true).Reach (Usual true) r ∧
    r.driver.users.pc 1 = .waiting 1 ∧ r.driver.stage 1 = .asleep ∧ r.driver.idequeue = some 0 ∧
    Served true r 1 1 := by
  obtain ⟨r, reach, found⟩ := System.Reach.of_exec (S := driver (Fin 2) Nat true) (Usual true) reading started_init
    (P := fun r => r.driver.users.pc 1 = .waiting 1 ∧ r.driver.stage 1 = .asleep ∧ r.driver.idequeue = some 0)
    (by decide +kernel)
  obtain ⟨waiting, asleep, queue⟩ := of_decide_eq_true found
  exact ⟨r, reach, waiting, asleep, queue, sleeper_served reach waiting (by simp [asleep])⟩

end Xv6.Ide
