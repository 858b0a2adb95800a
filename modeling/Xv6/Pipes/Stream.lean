import Xv6.Pipes.Model

/-!
# The byte stream of a pipe

What the readers of a pipe have got, followed by what is in the ring, is what the writers have put in. 512
divides `2 ^ 32`, so the counters may wrap.
-/

namespace Xv6.Pipes

open Bytes (Byte)

variable {P : Type} [DecidableEq P]

/-- All bytes deposited and all bytes delivered since the pipe was made, oldest first. -/
structure Stream where
  deposited : List Byte
  delivered : List Byte

def Stream.record (h : Stream) : Moved → Stream
  | .nothing => h
  | .deposited b => { h with deposited := h.deposited ++ [b] }
  | .delivered b => { h with delivered := h.delivered ++ [b] }

/-- The pipe with its history. -/
def streams (P : Type) [DecidableEq P] : System (Machine P × Stream) (Event P) where
  init s := s.1.Fresh ∧ s.2 = { deposited := [], delivered := [] }
  step s e := (s.1.step e).map fun went => (went.1, s.2.record went.2)

/-- The history and the ring agree. -/
structure InOrder (ring : Fifo Byte 32 PIPESIZE) (h : Stream) : Prop where
  bounded : ring.count ≤ PIPESIZE
  ordered : h.delivered ++ ring.contents = h.deposited

namespace InOrder

variable {ring : Fifo Byte 32 PIPESIZE} {h : Stream}

theorem push (order : InOrder ring h) (room : ring.nwrite ≠ ring.nread + BitVec.ofNat 32 PIPESIZE) (b : Byte) :
    InOrder (ring.push b) (h.record (.deposited b)) := by
  have less : ring.count < PIPESIZE :=
    lt_of_le_of_ne order.bounded fun full => room ((Fifo.count_eq_iff (by decide)).mp full)
  refine ⟨?_, ?_⟩
  · rw [Fifo.count_push (by decide) less]
    exact less
  · calc h.delivered ++ (ring.push b).contents
        = h.delivered ++ ring.contents ++ [b] := by
          rw [Fifo.contents_push (by decide) (by decide) less, List.append_assoc]
      _ = h.deposited ++ [b] := by rw [order.ordered]

theorem pop (order : InOrder ring h) (used : ring.nread ≠ ring.nwrite) :
    InOrder ring.pop (h.record (.delivered ring.front)) := by
  have some : ring.count ≠ 0 := fun empty => used (Fifo.count_eq_zero_iff.mp empty)
  refine ⟨?_, ?_⟩
  · rw [Fifo.count_pop some]
    exact le_trans (Nat.sub_le _ _) order.bounded
  · calc h.delivered ++ [ring.front] ++ ring.pop.contents
        = h.delivered ++ ring.contents := by
          rw [Fifo.contents_pop (by decide) some, List.append_assoc, List.singleton_append]
      _ = h.deposited := order.ordered

theorem went {s t : Machine P} {q : P} {b : Byte} {m : Moved} (order : InOrder s.pipe.ring h) (went : Went s q b t m) :
    InOrder t.pipe.ring (h.record m) := by
  cases went with
  | deposited _ room => exact order.push room b
  | delivered _ used => exact order.pop used
  | @shut writable => cases writable <;> exact order
  | acquired | branched | woke | slept | last | freed | left => exact order

theorem step {s t : Machine P} {e : Event P} {m : Moved} (order : InOrder s.pipe.ring h) (stepped : Stepped s e t m) :
    InOrder t.pipe.ring (h.record m) := by
  cases stepped with
  | call | kill => exact order
  | go moved => exact order.went moved

end InOrder

/-- However many processes use a pipe and however long: the ring never holds more than `PIPESIZE`
bytes, and the bytes delivered, followed by those in the ring, are the bytes deposited, in order. -/
theorem delivered_append_ring {s : Machine P} {h : Stream} (reach : (streams P).Reach System.Any (s, h)) :
    (s.pipe.ring.nwrite - s.pipe.ring.nread).toNat ≤ PIPESIZE ∧
      h.delivered ++ s.pipe.ring.contents = h.deposited := by
  have order : InOrder s.pipe.ring h := by
    refine System.Reach.invariant (P := fun s => InOrder s.1.pipe.ring s.2) ?_ ?_ reach
    · rintro ⟨s, h⟩ ⟨fresh, rfl⟩
      obtain ⟨⟨data, made⟩, -⟩ := fresh
      have empty : (Pipe.alloc data).ring.count = 0 := Fifo.count_eq_zero_iff.mpr rfl
      rw [made]
      exact ⟨by omega, Fifo.contents_of_count_eq_zero empty⟩
    · rintro ⟨s, h⟩ e ⟨t, h'⟩ order - stepped
      obtain ⟨⟨t, m⟩, moved, same⟩ := Option.map_eq_some_iff.mp stepped
      cases same
      exact order.step (stepped_of_step moved)
  exact ⟨order.bounded, order.ordered⟩

/-- Two bytes written, one of them read. -/
theorem delivered_append_ring_example : ∃ s h, (streams (Fin 2)).Reach System.Any (s, h) ∧
    h.deposited = [1, 2] ∧ h.delivered = [1] ∧ h.delivered ++ s.pipe.ring.contents = h.deposited := by
  obtain ⟨⟨s, h⟩, reach, seen⟩ := System.Reach.of_exec (S := streams (Fin 2)) System.Any
    [.call 0 (.pipewrite 2), .go 0 0, .go 0 1, .go 0 2, .go 0 0, .go 0 0, .go 0 0,
      .call 1 (.piperead 1), .go 1 0, .go 1 0, .go 1 0]
    (s := (newPipe (Fin 2), { deposited := [], delivered := [] })) ⟨newPipe_fresh, rfl⟩
    (P := fun s => s.2.deposited = [1, 2] ∧ s.2.delivered = [1]) (by decide +kernel)
  have both := of_decide_eq_true seen
  exact ⟨s, h, reach, both.1, both.2, (delivered_append_ring reach).2⟩

end Xv6.Pipes
