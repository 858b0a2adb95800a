import Mathlib.Data.Nat.Notation
import Mathlib.Tactic.Common
import Mathlib.Tactic.NormNum

/-!
# Byte buffers

Fixed-size arrays of bytes with three views: single bytes, little-endian 32-bit words and single bits. Every
view is read through a total accessor, so that index arithmetic stays in `Nat`.
-/

namespace Bytes

abbrev Byte := BitVec 8

/-- A string with the NUL that ends it left out. -/
structure CString where
  bytes : List Byte
  terminated : 0 ∉ bytes

/-- The string at the start of a buffer. -/
def cstr (buffer : List Byte) : List Byte :=
  buffer.takeWhile (· != 0)

/-- An array of `n` bytes. -/
def Buf (n : Nat) := Fin n → Byte

variable {n : Nat}

namespace Buf

/-- The byte at index `i`, zero past the end. -/
def get (b : Buf n) (i : Nat) : Byte :=
  if h : i < n then b ⟨i, h⟩ else 0

/-- `memset(b, 0, n)`. -/
def zero (n : Nat) : Buf n := fun _ => 0

/-- `memmove(b + off, src, m)`. -/
def move (b : Buf n) (off m : Nat) (src : Nat → Byte) : Buf n :=
  fun i => if off ≤ i.val ∧ i.val < off + m then src (i.val - off) else b i

@[simp] theorem get_zero (i : Nat) : (zero n).get i = 0 := by
  unfold get zero
  split <;> rfl

theorem get_move (b : Buf n) (off m i : Nat) (src : Nat → Byte) (inside : i < n) :
    (b.move off m src).get i = if off ≤ i ∧ i < off + m then src (i - off) else b.get i := by
  simp only [get, move, inside, dite_true]

theorem get_move_of_outside (b : Buf n) (off m i : Nat) (src : Nat → Byte)
    (outside : i < off ∨ off + m ≤ i) : (b.move off m src).get i = b.get i := by
  by_cases inside : i < n
  · rw [get_move b off m i src inside, if_neg (by omega)]
  · simp only [get, inside, dite_false]

theorem ext_get {a b : Buf n} (same : ∀ i < n, a.get i = b.get i) : a = b := by
  funext i
  have at_i := same i.val i.isLt
  simpa only [get, i.isLt, dite_true] using at_i

/-! ### Words -/

/-- The little-endian 32-bit word at word index `j`. -/
def word (b : Buf n) (j : Nat) : Nat :=
  (b.get (4 * j)).toNat + 256 * (b.get (4 * j + 1)).toNat +
    65536 * (b.get (4 * j + 2)).toNat + 16777216 * (b.get (4 * j + 3)).toNat

/-- Byte `k` of a 32-bit word. -/
def wordByte (w k : Nat) : Byte := BitVec.ofNat 8 (w / 256 ^ k)

def setWord (b : Buf n) (j w : Nat) : Buf n :=
  b.move (4 * j) 4 (wordByte w)

@[simp] theorem word_zero (j : Nat) : (zero n).word j = 0 := by
  simp [word]

theorem word_lt (b : Buf n) (j : Nat) : b.word j < 2 ^ 32 := by
  have h0 := (b.get (4 * j)).isLt
  have h1 := (b.get (4 * j + 1)).isLt
  have h2 := (b.get (4 * j + 2)).isLt
  have h3 := (b.get (4 * j + 3)).isLt
  unfold word
  omega

theorem word_congr {a b : Buf n} {j : Nat}
    (same : ∀ i, 4 * j ≤ i → i < 4 * j + 4 → a.get i = b.get i) : a.word j = b.word j := by
  unfold word
  rw [same (4 * j) (by omega) (by omega), same (4 * j + 1) (by omega) (by omega),
    same (4 * j + 2) (by omega) (by omega), same (4 * j + 3) (by omega) (by omega)]

theorem get_setWord_of_outside (b : Buf n) (j w i : Nat) (outside : i < 4 * j ∨ 4 * j + 4 ≤ i) :
    (b.setWord j w).get i = b.get i :=
  get_move_of_outside b (4 * j) 4 i (wordByte w) outside

theorem word_setWord_ne (b : Buf n) (i j w : Nat) (other : i ≠ j) :
    (b.setWord j w).word i = b.word i := by
  apply word_congr
  intro k low high
  exact get_setWord_of_outside b j w k (by omega)

private theorem get_setWord_byte (b : Buf n) (j w k : Nat) (small : k < 4) (fits : 4 * j + 4 ≤ n) :
    ((b.setWord j w).get (4 * j + k)).toNat = w / 256 ^ k % 256 := by
  unfold setWord
  rw [get_move _ _ _ _ _ (by omega), if_pos (by omega), Nat.add_sub_cancel_left]
  simp [wordByte]

theorem word_setWord_same (b : Buf n) (j w : Nat) (fits : 4 * j + 4 ≤ n) :
    (b.setWord j w).word j = w % 2 ^ 32 := by
  have h0 := get_setWord_byte b j w 0 (by omega) fits
  have h1 := get_setWord_byte b j w 1 (by omega) fits
  have h2 := get_setWord_byte b j w 2 (by omega) fits
  have h3 := get_setWord_byte b j w 3 (by omega) fits
  unfold word
  simp only [Nat.add_zero] at h0
  rw [h0, h1, h2, h3]
  norm_num
  omega

/-- Store `count` words from word index `base` on. -/
def setWords (b : Buf n) (base count : Nat) (w : Nat → Nat) : Buf n :=
  (List.range count).foldl (fun b i => b.setWord (base + i) (w i)) b

theorem word_setWords (b : Buf n) (base count : Nat) (w : Nat → Nat)
    (fits : 4 * (base + count) ≤ n) (j : Nat) :
    (b.setWords base count w).word j =
      if base ≤ j ∧ j < base + count then w (j - base) % 2 ^ 32 else b.word j := by
  unfold setWords
  induction count with
  | zero =>
    rw [if_neg (by omega)]
    rfl
  | succ count ih =>
    rw [List.range_succ, List.foldl_append]
    simp only [List.foldl_cons, List.foldl_nil]
    by_cases last : j = base + count
    · subst last
      rw [word_setWord_same _ _ _ (by omega), if_pos (by omega), Nat.add_sub_cancel_left]
    · rw [word_setWord_ne _ _ _ _ last, ih (by omega)]
      by_cases inside : base ≤ j ∧ j < base + count
      · rw [if_pos inside, if_pos (by omega)]
      · rw [if_neg inside, if_neg (by omega)]

/-- The buffer of `n / 4` given words. -/
def ofWords (n : Nat) (w : Nat → Nat) : Buf n := (zero n).setWords 0 (n / 4) w

theorem word_ofWords (w : Nat → Nat) {j : Nat} (inside : j < n / 4) (fits : w j < 2 ^ 32) :
    (ofWords n w).word j = w j := by
  rw [ofWords, word_setWords _ _ _ _ (by omega), if_pos (by omega), Nat.sub_zero,
    Nat.mod_eq_of_lt fits]

/-- Two buffers of whole words with equal words are equal. -/
theorem ext_word {a b : Buf n} (whole : 4 ∣ n) (same : ∀ j, 4 * j < n → a.word j = b.word j) :
    a = b := by
  apply ext_get
  intro i inside
  have equal := same (i / 4) (by omega)
  unfold word at equal
  have a0 := (a.get (4 * (i / 4))).isLt
  have a1 := (a.get (4 * (i / 4) + 1)).isLt
  have a2 := (a.get (4 * (i / 4) + 2)).isLt
  have a3 := (a.get (4 * (i / 4) + 3)).isLt
  have b0 := (b.get (4 * (i / 4))).isLt
  have b1 := (b.get (4 * (i / 4) + 1)).isLt
  have b2 := (b.get (4 * (i / 4) + 2)).isLt
  have b3 := (b.get (4 * (i / 4) + 3)).isLt
  apply BitVec.eq_of_toNat_eq
  have position : i = 4 * (i / 4) ∨ i = 4 * (i / 4) + 1 ∨ i = 4 * (i / 4) + 2 ∨
      i = 4 * (i / 4) + 3 := by omega
  rcases position with h | h | h | h <;> rw [h] <;> omega

/-! ### Bits -/

/-- Bit `i` of the buffer, bits of a byte counted from its low end. -/
def bit (b : Buf n) (i : Nat) : Bool := (b.get (i / 8)).getLsbD (i % 8)

theorem ext_bit {a b : Buf n} (same : ∀ i, i < 8 * n → a.bit i = b.bit i) : a = b := by
  apply ext_get
  intro i inside
  apply BitVec.eq_of_getLsbD_eq
  intro j small
  have equal := same (8 * i + j) (by omega)
  have byte : (8 * i + j) / 8 = i := by omega
  have position : (8 * i + j) % 8 = j := by omega
  rwa [bit, bit, byte, position] at equal

/-- The one-bit mask `1 << k` as a byte. -/
def mask (k : Nat) : Byte := 1#8 <<< k

/-- Replace the byte at index `i`. -/
def setByte (b : Buf n) (i : Nat) (v : Byte) : Buf n := b.move i 1 fun _ => v

theorem get_setByte (b : Buf n) (i j : Nat) (v : Byte) (inside : i < n) :
    (b.setByte i v).get j = if j = i then v else b.get j := by
  by_cases same : j = i
  · subst same
    rw [setByte, get_move _ _ _ _ _ inside, if_pos (by omega), if_pos rfl]
  · rw [if_neg same]
    exact get_move_of_outside b i 1 j _ (by omega)

private theorem getLsbD_mask (k j : Nat) (small : k < 8) :
    (mask k).getLsbD j = decide (j = k) := by
  simp only [mask, BitVec.getLsbD_shiftLeft, BitVec.getLsbD_one]
  by_cases same : j = k
  · subst same
    simp [small]
  · simp [same]
    omega

/-- Testing a byte against a one-bit mask tests that bit. -/
theorem and_mask_eq_zero (v : Byte) (k : Nat) (small : k < 8) :
    v &&& mask k = 0 ↔ v.getLsbD k = false := by
  constructor
  · intro zero
    have at_k := congrArg (fun x : Byte => x.getLsbD k) zero
    simpa [getLsbD_mask k k small] using at_k
  · intro clear
    apply BitVec.eq_of_getLsbD_eq
    intro j _
    simp only [BitVec.getLsbD_and, getLsbD_mask k j small]
    by_cases same : j = k
    · subst same
      simp [clear]
    · simp [same]

theorem getLsbD_or_mask (v : Byte) (k j : Nat) (small : k < 8) :
    (v ||| mask k).getLsbD j = (decide (j = k) || v.getLsbD j) := by
  rw [BitVec.getLsbD_or, getLsbD_mask k j small, Bool.or_comm]

theorem getLsbD_and_not_mask (v : Byte) (k j : Nat) (small : k < 8) (inside : j < 8) :
    (v &&& ~~~(mask k)).getLsbD j = (!decide (j = k) && v.getLsbD j) := by
  rw [BitVec.getLsbD_and, BitVec.getLsbD_not, getLsbD_mask k j small, Bool.and_comm]
  simp [inside]

/-- The buffer with given bits. -/
def ofBits (n : Nat) (f : Nat → Bool) : Buf n := fun i =>
  (List.range 8).foldl (fun v k => if f (8 * i.val + k) then v ||| mask k else v) 0

theorem bit_ofBits (f : Nat → Bool) {i : Nat} (inside : i < 8 * n) : (ofBits n f).bit i = f i := by
  have first : ∀ m ≤ 8, ∀ base j, j < 8 →
      ((List.range m).foldl (fun v k => if f (base + k) then v ||| mask k else v) (0 : Byte)).getLsbD j
        = (decide (j < m) && f (base + j)) := by
    intro m
    induction m with
    | zero => simp
    | succ m ih =>
      intro bound base j small
      rw [List.range_succ, List.foldl_append]
      simp only [List.foldl_cons, List.foldl_nil]
      have before := ih (by omega) base j small
      by_cases last : j = m
      · subst last
        by_cases set : f (base + j) = true
        · rw [if_pos set, getLsbD_or_mask _ _ _ small, set]
          simp
        · rw [if_neg set, before]
          simpa using set
      · have same : decide (j < m + 1) = decide (j < m) := by
          rw [decide_eq_decide]
          omega
        by_cases set : f (base + m) = true
        · rw [if_pos set, getLsbD_or_mask _ _ _ (by omega), before, same]
          simp [last]
        · rw [if_neg set, before, same]
  have byte : i / 8 < n := by omega
  have bits := first 8 (Nat.le_refl 8) (8 * (i / 8)) (i % 8) (Nat.mod_lt i (by omega))
  rw [bit, get, dif_pos byte, ofBits, bits, Nat.div_add_mod]
  simp [Nat.mod_lt i (show 8 > 0 by omega)]

end Buf

end Bytes
