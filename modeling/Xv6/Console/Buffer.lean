import Xv6.Console.Model

/-!
# The buffer as two lists

The three indices stand for the committed bytes that no reader has taken yet and the line that is being
edited. Each access of `console.c` is one operation on the two lists.
-/

namespace Xv6.Console

open Bytes (Byte)

namespace Input

/-- The cells from the read index up to the edit index. -/
def ring (s : Input) : Fifo Byte 32 INPUT_BUF where
  data := s.buf
  nread := s.r
  nwrite := s.e

/-- The bytes that are committed and not yet taken. -/
def unread (s : Input) : List Byte :=
  ({ data := s.buf, nread := s.r, nwrite := s.w } : Fifo Byte 32 INPUT_BUF).contents

end Input

/-- The buffer holds the unread bytes and behind them the line. -/
structure Shows (s : Input) (unread line : List Byte) : Prop where
  contents : s.ring.contents = unread ++ line
  committed : (s.w - s.r).toNat = unread.length
  bounded : unread.length + line.length ≤ INPUT_BUF

namespace Shows

variable {s : Input} {u l : List Byte} {c : Byte}

theorem count (shows : Shows s u l) : s.ring.count = u.length + l.length := by
  rw [← Fifo.length_contents, shows.contents, List.length_append]

theorem unread_eq (shows : Shows s u l) : s.unread = u := by
  have early : (s.w - s.ring.nread).toNat ≤ s.ring.count := by
    rw [shows.count]
    exact shows.committed.le.trans (Nat.le_add_right _ _)
  calc s.unread = s.ring.contents.take (s.w - s.r).toNat := Fifo.contents_until early
    _ = u := by rw [shows.contents, shows.committed, List.take_left]

theorem ordered (shows : Shows s u l) :
    (s.w - s.r).toNat ≤ (s.e - s.r).toNat ∧ (s.e - s.r).toNat ≤ INPUT_BUF := by
  have edit : (s.e - s.r).toNat = u.length + l.length := shows.count
  rw [shows.committed, edit]
  exact ⟨Nat.le_add_right _ _, shows.bounded⟩

theorem write_eq_edit (shows : Shows s u l) : s.e = s.w ↔ l = [] := by
  constructor
  · intro same
    have edit : (s.e - s.r).toNat = u.length + l.length := shows.count
    rw [same, shows.committed] at edit
    exact List.length_eq_zero_iff.mp (by omega)
  · intro none
    have edit : (s.e - s.r).toNat = u.length + l.length := shows.count
    rw [none, List.length_nil, Nat.add_zero, ← shows.committed] at edit
    have equal : s.e - s.r = s.w - s.r := BitVec.eq_of_toNat_eq edit
    rw [← BitVec.sub_add_cancel s.e s.r, equal, BitVec.sub_add_cancel]

theorem read_eq_write (shows : Shows s u l) : s.r = s.w ↔ u = [] := by
  rw [← List.length_eq_zero_iff, ← shows.committed]
  exact (Fifo.count_eq_zero_iff (f := { data := s.buf, nread := s.r, nwrite := s.w })).symm

theorem full_iff (shows : Shows s u l) : s.e = s.r + BitVec.ofNat 32 INPUT_BUF ↔ u.length + l.length = INPUT_BUF := by
  rw [← shows.count]
  exact (Fifo.count_eq_iff (f := s.ring) (by decide)).symm

theorem store (shows : Shows s u l) (room : u.length + l.length < INPUT_BUF) (c : Byte) :
    Shows (s.store c) u (l ++ [c]) where
  contents := by
    have pushed : (s.ring.push c).contents = _ := Fifo.contents_push (by decide) (by decide) (shows.count ▸ room) c
    rw [shows.contents, List.append_assoc] at pushed
    exact pushed
  committed := shows.committed
  bounded := by
    rw [List.length_append, List.length_singleton]
    omega

theorem erase (shows : Shows s u (l ++ [c])) : s.get (s.e - 1) = c ∧ Shows s.erase u l := by
  have used : s.ring.count ≠ 0 := by
    rw [shows.count, List.length_append, List.length_singleton]
    omega
  have parts := Fifo.contents_retract (by decide) used
  rw [shows.contents, ← List.append_assoc] at parts
  obtain ⟨before, last⟩ := List.append_inj' parts rfl
  have bounded := shows.bounded
  rw [List.length_append] at bounded
  exact ⟨(List.singleton_inj.mp last).symm, before.symm, shows.committed, by omega⟩

theorem commit (shows : Shows s u l) : Shows s.commit (u ++ l) [] where
  contents := by
    rw [List.append_nil]
    exact shows.contents
  committed := by
    rw [List.length_append]
    exact shows.count
  bounded := by
    rw [List.length_append]
    exact shows.bounded

theorem take (shows : Shows s (c :: u) l) : s.get s.r = c ∧ Shows { s with r := s.r + 1 } u l := by
  have used : s.ring.count ≠ 0 := by
    rw [shows.count, List.length_cons]
    omega
  have parts := Fifo.contents_pop (by decide) used
  rw [shows.contents, List.cons_append] at parts
  obtain ⟨first, rest⟩ := List.cons.inj parts
  have bounded := shows.bounded
  rw [List.length_cons] at bounded
  refine ⟨first.symm, rest.symm, ?_, by omega⟩
  have waiting : (Fifo.count ({ data := s.buf, nread := s.r, nwrite := s.w } : Fifo Byte 32 INPUT_BUF)) = u.length + 1 :=
    shows.committed
  have popped := Fifo.count_pop (f := { data := s.buf, nread := s.r, nwrite := s.w }) (by rw [waiting]; omega)
  rw [waiting, Nat.add_sub_cancel] at popped
  exact popped

end Shows

end Xv6.Console
