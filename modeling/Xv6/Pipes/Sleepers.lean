import Mathlib.Data.Fintype.Basic
import Xv6.Pipes.Model

/-!
# Who sleeps on a pipe

A reader sleeps while the ring is empty and a writer while it is full. Whoever ends that condition calls
`wakeup` before giving `p->lock` back, with one exception: `pipewrite` that finds the ring full, and the
read end closed or its own process killed, returns at once, although it may have put bytes into the ring.
When that return is only taken while nobody sleeps on `&p->nread`, no sleeper is ever left behind.
-/

namespace Xv6.Pipes

open Bytes (Byte)

open Function (update)

variable {P : Type}

/-- What a process that sleeps on the channel waits to end. -/
def Pipe.Waits (p : Pipe) : Chan → Prop
  | .nread => p.Empty ∧ p.writeopen = true
  | .nwrite => p.Full ∧ p.readopen = true

namespace Point

/-- The channel of the `wakeup` that the holder of `p->lock` comes to unless it returns early. -/
def owes : Point → Option Chan
  | writeLoop .. | writeFull .. | writeDone _ => some .nread
  | readCopy .. | readDone _ => some .nwrite
  | closeWake writable => some (if writable then .nread else .nwrite)
  | _ => none

/-- The channel that the holder of `p->lock` is going to sleep on. -/
def rests : Point → Option Chan
  | writeFull .. | writeSleep .. => some .nwrite
  | readSleep _ => some .nread
  | _ => none

end Point

/-! ### The lock -/

/-- `p->lock` is held by the process that is between `acquire` and `release`. -/
def Guarded (lock : Option P) (point : P → Point) : Prop := ∀ q, lock = some q ↔ (point q).inside = true

namespace Guarded

variable {lock : Option P} {point : P → Point} {q : P} {p : Point} [DecidableEq P]

theorem keep (guarded : Guarded lock point) (same : p.inside = (point q).inside) :
    Guarded lock (update point q p) := by
  intro r
  by_cases here : r = q
  · subst here
    rw [Function.update_self, same]
    exact guarded r
  · rw [Function.update_of_ne here]
    exact guarded r

theorem take (guarded : Guarded none point) (inside : p.inside = true) : Guarded (some q) (update point q p) := by
  intro r
  by_cases here : r = q
  · subst here
    rw [Function.update_self]
    exact ⟨fun _ => inside, fun _ => rfl⟩
  · rw [Function.update_of_ne here]
    exact ⟨fun held => absurd (Option.some.inj held).symm here, fun held => nomatch (guarded r).mpr held⟩

theorem drop (guarded : Guarded (some q) point) (outside : p.inside = false) : Guarded none (update point q p) := by
  intro r
  refine ⟨nofun, fun held => ?_⟩
  by_cases here : r = q
  · subst here
    rw [Function.update_self, outside] at held
    cases held
  · rw [Function.update_of_ne here] at held
    exact absurd (Option.some.inj ((guarded r).mpr held)).symm here

end Guarded

/-! ### The sleepers -/

/-- Nobody sleeps on the channel. -/
def Quiet (asleep : P → Option Chan) (c : Chan) : Prop := ∀ q, asleep q ≠ some c

instance decidableQuiet [Fintype P] (asleep : P → Option Chan) (c : Chan) : Decidable (Quiet asleep c) :=
  inferInstanceAs (Decidable (∀ q, asleep q ≠ some c))

theorem quiet_wakeup (s : Machine P) (c : Chan) : Quiet (s.wakeup c).asleep c := by
  intro r asleep
  simp only [Machine.wakeup] at asleep
  split at asleep
  · cases asleep
  · contradiction

theorem Quiet.wakeup {s : Machine P} {c : Chan} (quiet : Quiet s.asleep c) (c' : Chan) :
    Quiet (s.wakeup c').asleep c := by
  intro r asleep
  simp only [Machine.wakeup] at asleep
  split at asleep
  · cases asleep
  · exact quiet r asleep

theorem Quiet.update [DecidableEq P] {asleep : P → Option Chan} {c : Chan} (quiet : Quiet asleep c) (q : P)
    {now : Option Chan} (apart : now ≠ some c) : Quiet (update asleep q now) c := by
  intro r
  by_cases here : r = q
  · subst here
    rw [Function.update_self]
    exact apart
  · rw [Function.update_of_ne here]
    exact quiet r

namespace Machine

variable (s : Machine P)

/-- Where the holder of `p->lock` stands. -/
def spot : Point :=
  match s.lock with
  | some q => s.point q
  | none => .out

/-- The next step of `q` is the early return of `pipewrite`. -/
def abandons (q : P) : Bool :=
  match s.point q with
  | .writeLoop n i => decide (i < n ∧ s.pipe.Full ∧ (s.pipe.readopen = false ∨ s.killed q = true))
  | _ => false

end Machine

/-- `pipewrite` returns early only while no reader sleeps. -/
def Heard (s : Machine P) : Event P → Prop
  | .go q _ => s.abandons q = true → Quiet s.asleep .nread
  | _ => True

instance decidableHeard [Fintype P] (s : Machine P) : (e : Event P) → Decidable (Heard s e)
  | .go q _ => inferInstanceAs (Decidable (s.abandons q = true → Quiet s.asleep .nread))
  | .call .. => .isTrue trivial
  | .kill _ => .isTrue trivial

/-! ### The invariant -/

/-- On every channel nobody sleeps, or what the sleepers wait for is still to come, or the holder of
the lock is still to call `wakeup`. -/
structure Settled (s : Machine P) : Prop where
  guarded : Guarded s.lock s.point
  called : ∀ c, Quiet s.asleep c ∨ s.pipe.Waits c ∨ s.spot.owes = some c
  rests : ∀ c, s.spot.rests = some c → s.pipe.Waits c

variable {s t : Machine P} {q : P} {b : Byte} {m : Moved}

namespace Settled

theorem held (settled : Settled s) (inside : (s.point q).inside = true) : s.lock = some q ∧ s.spot = s.point q := by
  have lock := (settled.guarded q).mpr inside
  exact ⟨lock, by rw [Machine.spot, lock]⟩

variable [DecidableEq P]

theorem inside (settled : Settled s) (lock : s.lock = some q) {p : Point} (stays : p.inside = true)
    (called : ∀ c, Quiet s.asleep c ∨ s.pipe.Waits c ∨ (s.point q).owes = some c →
      Quiet t.asleep c ∨ t.pipe.Waits c ∨ p.owes = some c)
    (rests : ∀ c, p.rests = some c → t.pipe.Waits c) (same : t.lock = s.lock) (point : t.point = update s.point q p) :
    Settled t := by
  have inside := (settled.guarded q).mp lock
  have before : s.spot = s.point q := (settled.held inside).2
  have after : t.spot = p := by rw [Machine.spot, same, lock, point]; exact Function.update_self ..
  refine ⟨?_, ?_, ?_⟩
  · rw [same, point]
    exact settled.guarded.keep (by rw [stays, inside])
  · rw [after]
    exact fun c => called c (before ▸ settled.called c)
  · rw [after]
    exact rests

theorem leave (settled : Settled s) (lock : s.lock = some q) {p : Point} (leaves : p.inside = false)
    (called : ∀ c, Quiet s.asleep c ∨ s.pipe.Waits c ∨ (s.point q).owes = some c →
      Quiet t.asleep c ∨ t.pipe.Waits c) (free : t.lock = none) (point : t.point = update s.point q p) : Settled t := by
  have before : s.spot = s.point q := (settled.held ((settled.guarded q).mp lock)).2
  have after : t.spot = .out := by rw [Machine.spot, free]
  refine ⟨?_, fun c => ?_, ?_⟩
  · rw [free, point]
    have guarded := settled.guarded
    rw [lock] at guarded
    exact guarded.drop leaves
  · exact (called c (before ▸ settled.called c)).imp_right .inl
  · rw [after]
    exact nofun

theorem outside (settled : Settled s) {p : Point} (before : (s.point q).inside = false) (after : p.inside = false)
    (asleep : ∀ c, Quiet s.asleep c → Quiet t.asleep c) (pipe : t.pipe = s.pipe) (same : t.lock = s.lock)
    (point : t.point = update s.point q p) : Settled t := by
  have spot : t.spot = s.spot := by
    rw [Machine.spot, Machine.spot, same, point]
    split
    next h held =>
      -- the holder is another process
      have other : h ≠ q := by
        rintro rfl
        rw [(settled.guarded h).mp held] at before
        cases before
      exact Function.update_of_ne other _ _
    · rfl
  refine ⟨?_, fun c => ?_, ?_⟩
  · rw [same, point]
    exact settled.guarded.keep (by rw [before, after])
  · rw [spot, pipe]
    exact (settled.called c).imp_left (asleep c)
  · rw [spot, pipe]
    exact settled.rests

theorem acquired (settled : Settled s) {p : Point} (entry : (s.point q).entry = some p) (free : s.lock = none) :
    Settled { s.goto q p with lock := some q } := by
  have fresh : p.inside = true ∧ p.rests = none := by
    cases at_point : s.point q <;> rw [at_point] at entry <;> cases entry <;> exact ⟨rfl, rfl⟩
  have before : s.spot = .out := by rw [Machine.spot, free]
  have after : Machine.spot { s.goto q p with lock := some q } = p := Function.update_self ..
  refine ⟨?_, fun c => ?_, fun c resting => ?_⟩
  · have guarded := settled.guarded
    rw [free] at guarded
    exact guarded.take fresh.1
  · have called := settled.called c
    rw [before] at called
    exact called.imp_right fun waits => waits.imp_right nofun
  · rw [after, fresh.2] at resting
    cases resting

/-- The tests: nobody who owes a `wakeup` gets rid of it but by the early return of `pipewrite`. -/
theorem branched (settled : Settled s) {p : Point} (branch : Branch s q p)
    (heard : s.abandons q = true → Quiet s.asleep .nread) : Settled (s.goto q p) := by
  have within : (s.point q).inside = true := by
    cases branch <;> simp_all [Point.inside]
  have lock := (settled.held within).1
  cases branch with
  | @abandon n i here more full quit =>
    have quits : i < n ∧ s.pipe.Full ∧ (s.pipe.readopen = false ∨ s.killed q = true) := ⟨more, full, quit⟩
    have quiet : Quiet s.asleep .nread := heard (by rw [Machine.abandons, here]; exact decide_eq_true quits)
    refine settled.inside lock rfl (fun c called => ?_) (fun c resting => by cases resting) rfl rfl
    rw [here] at called
    rcases called with quiet | waits | owes
    · exact .inl quiet
    · exact .inr (.inl waits)
    · cases owes
      exact .inl quiet
  | full here full isOpen =>
    refine settled.inside lock rfl (fun c called => ?_) (fun c resting => ?_) rfl rfl
    · rw [here] at called
      exact called
    · cases resting
      exact ⟨full, isOpen⟩
  | empty here empty isOpen =>
    refine settled.inside lock rfl (fun c called => ?_) (fun c resting => ?_) rfl rfl
    · rw [here] at called
      exact called
    · cases resting
      exact ⟨empty, isOpen⟩
  | written here | copied here | abort here =>
    refine settled.inside lock rfl (fun c called => ?_) (fun c resting => by cases resting) rfl rfl
    rw [here] at called
    exact called
  | copy here =>
    refine settled.inside lock rfl (fun c called => ?_) (fun c resting => by cases resting) rfl rfl
    rw [here] at called
    exact called.imp_right fun waits => waits.imp_right fun owes => by cases owes

/-- `wakeup` pays what is owed. -/
theorem woke (settled : Settled s) {c : Chan} {p : Point} (wakes : (s.point q).wakes = some (c, p)) :
    Settled ((s.wakeup c).goto q p) := by
  have facts : (s.point q).inside = true ∧ (s.point q).owes = some c ∧ p.inside = true ∧ p.owes = none ∧
      ∀ c', p.rests = some c' → (s.point q).rests = some c' := by
    cases at_point : s.point q <;> rw [at_point] at wakes <;> cases wakes
    all_goals exact ⟨rfl, rfl, rfl, rfl, fun _ resting => resting⟩
  obtain ⟨within, owes, stays, -, resting⟩ := facts
  obtain ⟨lock, spot⟩ := settled.held within
  refine settled.inside lock stays (fun c' called => ?_) (fun c' rest => ?_) rfl rfl
  · rcases called with quiet | waits | owed
    · exact .inl (quiet.wakeup c)
    · exact .inr (.inl waits)
    · rw [owes] at owed
      cases owed
      exact .inl (quiet_wakeup s c)
  · refine settled.rests c' ?_
    rw [spot]
    exact resting c' rest

theorem slept (settled : Settled s) {c : Chan} {p : Point} (sleeps : (s.point q).sleeps = some (c, p)) :
    Settled (s.sleep q c p) := by
  have facts : (s.point q).inside = true ∧ (s.point q).owes = none ∧ (s.point q).rests = some c ∧ p.inside = false := by
    cases at_point : s.point q <;> rw [at_point] at sleeps <;> cases sleeps
    all_goals exact ⟨rfl, rfl, rfl, rfl⟩
  obtain ⟨within, owes, resting, leaves⟩ := facts
  obtain ⟨lock, spot⟩ := settled.held within
  refine settled.leave lock leaves (fun c' called => ?_) rfl rfl
  by_cases same : c' = c
  · subst same
    exact .inr (settled.rests c' (by rw [spot, resting]))
  · rcases called with quiet | waits | owed
    · exact .inl (quiet.update q fun now => same (Option.some.inj now).symm)
    · exact .inr waits
    · rw [owes] at owed
      cases owed

theorem went (settled : Settled s) (went : Went s q b t m) (heard : s.abandons q = true → Quiet s.asleep .nread) :
    Settled t := by
  cases went with
  | acquired entry free _ => exact settled.acquired entry free
  | branched branch => exact settled.branched branch heard
  | woke wakes => exact settled.woke wakes
  | slept sleeps => exact settled.slept sleeps
  | deposited here room =>
    have lock := (settled.held (q := q) (by rw [here]; rfl)).1
    refine settled.inside lock rfl (fun c called => ?_) (fun c resting => by cases resting) rfl rfl
    rw [here] at called
    rcases called with quiet | waits | owes
    · exact .inl quiet
    · cases c with
      | nread => exact .inr (.inr rfl)
      | nwrite => exact absurd waits.1 room
    · exact .inr (.inr owes)
  | delivered here used =>
    have lock := (settled.held (q := q) (by rw [here]; rfl)).1
    refine settled.inside lock rfl (fun c called => ?_) (fun c resting => by cases resting) rfl rfl
    rw [here] at called
    rcases called with quiet | waits | owes
    · exact .inl quiet
    · cases c with
      | nread => exact absurd waits.1 used
      | nwrite => exact .inr (.inr rfl)
    · exact .inr (.inr owes)
  | @shut writable here =>
    have lock := (settled.held (q := q) (by rw [here]; rfl)).1
    refine settled.inside lock rfl (fun c called => ?_) (fun c resting => by cases resting) rfl rfl
    rw [here] at called
    rcases called with quiet | waits | owes
    · exact .inl quiet
    · -- closing an end leaves the other condition alone
      cases writable <;> cases c
      · exact .inr (.inl waits)
      · exact .inr (.inr rfl)
      · exact .inr (.inr rfl)
      · exact .inr (.inl waits)
    · cases owes
  | last here =>
    have lock := (settled.held (q := q) (by rw [here]; rfl)).1
    refine settled.leave lock rfl (fun c called => ?_) rfl rfl
    rw [here] at called
    exact called.imp_right fun waits => waits.resolve_right (by intro owes; cases owes)
  | left here =>
    have facts : (s.point q).inside = true ∧ (s.point q).owes = none := by
      rcases here with here | here <;> rw [here] <;> exact ⟨rfl, rfl⟩
    refine settled.leave (settled.held facts.1).1 rfl (fun c called => ?_) rfl rfl
    rw [facts.2] at called
    exact called.imp_right fun waits => waits.resolve_right (by intro owes; cases owes)
  | freed here => exact settled.outside (by rw [here]; rfl) rfl (fun _ quiet => quiet) rfl rfl rfl

theorem step (settled : Settled s) {e : Event P} (stepped : Stepped s e t m) (heard : Heard s e) : Settled t := by
  cases stepped with
  | @call q op idle =>
    have outside : op.entry.inside = false := by cases op <;> rfl
    exact settled.outside (by rw [idle]; rfl) outside (fun _ quiet => quiet) rfl rfl rfl
  | go went => exact settled.went went heard
  | kill q =>
    refine ⟨settled.guarded, fun c => (settled.called c).imp_left fun quiet => ?_, settled.rests⟩
    exact quiet.update q nofun

omit [DecidableEq P] in
theorem init (fresh : s.Fresh) : Settled s := by
  obtain ⟨-, lock, awake, idle, -⟩ := fresh
  have spot : s.spot = .out := by rw [Machine.spot, lock]
  refine ⟨fun q => ?_, fun c => .inl fun q => ?_, fun c resting => ?_⟩
  · rw [lock, idle]
    exact ⟨nofun, nofun⟩
  · rw [awake]
    nofun
  · rw [spot] at resting
    cases resting

theorem of_reach (reach : (pipe P).Reach Heard s) : Settled s := by
  refine System.Reach.invariant (P := Settled) (fun s => init) (fun s e t settled heard stepped => ?_) reach
  obtain ⟨⟨t, m⟩, moved, same⟩ := Option.map_eq_some_iff.mp stepped
  cases same
  exact settled.step (stepped_of_step moved) heard

end Settled

variable [DecidableEq P]

/-- Runs in which `pipewrite` returns early only while no reader sleeps: when `p->lock` is free, a
process that sleeps on `&p->nread` has an empty ring with an open write end before it, and one that
sleeps on `&p->nwrite` a full ring with an open read end. -/
theorem no_stranded_sleeper (reach : (pipe P).Reach Heard s) (free : s.lock = none) (q : P) :
    (s.asleep q = some .nread → s.pipe.Empty ∧ s.pipe.writeopen = true) ∧
      (s.asleep q = some .nwrite → s.pipe.Full ∧ s.pipe.readopen = true) := by
  have settled := Settled.of_reach reach
  have waits : ∀ c, s.asleep q = some c → s.pipe.Waits c := by
    intro c asleep
    rcases settled.called c with quiet | waits | owes
    · exact absurd asleep (quiet q)
    · exact waits
    · rw [Machine.spot, free] at owes
      cases owes
  exact ⟨waits .nread, waits .nwrite⟩

/-- A reader of an empty pipe is asleep; the ring is empty and the write end is open. -/
theorem no_stranded_sleeper_reader : ∃ s, (pipe (Fin 2)).Reach Heard s ∧ s.lock = none ∧
    s.asleep 0 = some .nread ∧ s.pipe.Empty ∧ s.pipe.writeopen = true := by
  obtain ⟨s, reach, seen⟩ := System.Reach.of_exec (S := pipe (Fin 2)) Heard
    [.call 0 (.piperead 1), .go 0 0, .go 0 0, .go 0 0] (s := newPipe (Fin 2)) newPipe_fresh
    (P := fun s => s.lock = none ∧ s.asleep 0 = some .nread) (by decide +kernel)
  obtain ⟨free, asleep⟩ := of_decide_eq_true seen
  exact ⟨s, reach, free, asleep, (no_stranded_sleeper reach free 0).1 asleep⟩

/-- Process 0 waits for a byte, process 1 writes 513 and is killed before it finds the ring full:
its call returns -1 without `wakeup`, and 0 sleeps on before a full ring. Process 2 has the write
end open, so no `pipeclose` comes to wake it. -/
theorem stranded_reader : ∃ s, (pipe (Fin 3)).Reach System.Any s ∧ s.lock = none ∧
    s.asleep 0 = some .nread ∧ s.pipe.Full ∧ ¬s.pipe.Empty ∧ s.pipe.writeopen = true ∧ s.returned 1 = some (-1) := by
  obtain ⟨s, reach, seen⟩ := System.Reach.of_exec (S := pipe (Fin 3)) System.Any
    ([.call 0 (.piperead 1), .go 0 0, .go 0 0, .go 0 0, .call 1 (.pipewrite 513), .go 1 0] ++
      List.replicate PIPESIZE (.go 1 7) ++ [.kill 1, .go 1 7, .go 1 7]) (s := newPipe (Fin 3)) newPipe_fresh
    (P := fun s => s.lock = none ∧ s.asleep 0 = some .nread ∧ s.pipe.Full ∧ ¬s.pipe.Empty ∧
      s.pipe.writeopen = true ∧ s.returned 1 = some (-1)) (by decide +kernel)
  exact ⟨s, reach, of_decide_eq_true seen⟩

end Xv6.Pipes
