/-
  Bytes in memory, and the words stored in them.

  A piece of memory is a function from offsets to bytes; `bcopy` copies a part of one into another.  A
  32-bit word takes four bytes, the LOWEST FIRST.  What is needed of all this are three kinds of facts:

  * what was stored is loaded (`getWord_putWord`);
  * a store leaves the bytes around it alone (`putWord_of_lt`, `putWord_of_ge`, `bcopy_of_lt`, …);
  * a load depends on the bytes it reads and on nothing else (`getWord_congr`, `slice_congr`), so a
    copy of the bytes is as good as the original.
-/
import Mathlib.Algebra.Group.Int.Defs
import Mathlib.Algebra.GroupWithZero.Nat
import Mathlib.Data.List.Basic

namespace Nachos

/-- The bytes from some address on. -/
abbrev Bytes := Nat → UInt8

/-! ## Copies -/

/-- `bcopy(src + s, dst + d, n)`. -/
def bcopy (src : Bytes) (s : Nat) (dst : Bytes) (d n : Nat) : Bytes := fun i =>
  if d ≤ i ∧ i < d + n then src (s + (i - d)) else dst i

section Copies

variable {src dst : Bytes} {s d n i : Nat}

theorem bcopy_add (h : i < n) : bcopy src s dst d n (d + i) = src (s + i) := by
  have hin : d ≤ d + i ∧ d + i < d + n := by omega
  rw [bcopy, if_pos hin, Nat.add_sub_cancel_left]

theorem bcopy_zero (h : i < n) : bcopy src s dst 0 n i = src (s + i) := by
  have hadd : bcopy src s dst 0 n (0 + i) = src (s + i) := bcopy_add h
  rw [Nat.zero_add] at hadd
  exact hadd

theorem bcopy_of_lt (h : i < d) : bcopy src s dst d n i = dst i := by
  have hout : ¬ (d ≤ i ∧ i < d + n) := by omega
  rw [bcopy, if_neg hout]

theorem bcopy_of_ge (h : d + n ≤ i) : bcopy src s dst d n i = dst i := by
  have hout : ¬ (d ≤ i ∧ i < d + n) := by omega
  rw [bcopy, if_neg hout]

/-- A copy of nothing. -/
theorem bcopy_none : bcopy src s dst d 0 = dst := by
  funext i
  have hout : ¬ (d ≤ i ∧ i < d + 0) := by omega
  rw [bcopy, if_neg hout]

/-- A copy depends on the bytes that are copied. -/
theorem bcopy_congr {src' : Bytes} {s' : Nat} (h : ∀ i < n, src (s + i) = src' (s' + i)) :
    bcopy src s dst d n = bcopy src' s' dst d n := by
  funext i
  by_cases hin : d ≤ i ∧ i < d + n
  · rw [bcopy, bcopy, if_pos hin, if_pos hin, h _ (by omega)]
  · rw [bcopy, bcopy, if_neg hin, if_neg hin]

end Copies

/-- The `n` bytes from `a` on, as a list. -/
def slice (b : Bytes) (a n : Nat) : List UInt8 := (List.range n).map fun i => b (a + i)

@[simp] theorem length_slice (b : Bytes) (a n : Nat) : (slice b a n).length = n := by
  simp [slice]

theorem slice_congr {b b' : Bytes} {a a' n : Nat} (h : ∀ i < n, b (a + i) = b' (a' + i)) :
    slice b a n = slice b' a' n := by
  refine List.map_congr_left fun i hi => ?_
  exact h i (List.mem_range.mp hi)

theorem slice_add (b : Bytes) (a n m : Nat) : slice b a (n + m) = slice b a n ++ slice b (a + n) m := by
  rw [slice, slice, slice, List.range_add, List.map_append, List.map_map]
  simp only [Function.comp_def, Nat.add_assoc]

/-! ## Words -/

/-- A number as an `int`: one that does not fit wraps around. -/
def int32 (x : Int) : Int := (BitVec.ofInt 32 x).toInt

theorem int32_of_range {x : Int} (hlow : -2 ^ 31 ≤ x) (hhigh : x < 2 ^ 31) : int32 x = x := by
  rw [int32, BitVec.toInt_ofInt]
  exact Int.bmod_eq_of_le (by omega) (by omega)

/-- A sum that is too large comes out negative. -/
theorem int32_of_overflow {x : Int} (hlow : 2 ^ 31 ≤ x) (hhigh : x < 2 ^ 31 + 2 ^ 32) : int32 x = x - 2 ^ 32 := by
  have hwrap : (x - 2 ^ 32).bmod (2 ^ 32) = x.bmod (2 ^ 32) := Int.sub_bmod_right x (2 ^ 32)
  rw [int32, BitVec.toInt_ofInt, ← hwrap]
  exact Int.bmod_eq_of_le (by omega) (by omega)

/-- One that is too small comes out positive. -/
theorem int32_of_underflow {x : Int} (hlow : -2 ^ 31 - 2 ^ 32 ≤ x) (hhigh : x < -2 ^ 31) : int32 x = x + 2 ^ 32 := by
  have hwrap : (x + 2 ^ 32).bmod (2 ^ 32) = x.bmod (2 ^ 32) := Int.add_bmod_right x (2 ^ 32)
  rw [int32, BitVec.toInt_ofInt, ← hwrap]
  exact Int.bmod_eq_of_le (by omega) (by omega)

theorem int32_lt (x : Int) : int32 x < 2 ^ 31 := BitVec.toInt_lt

/-- A sum may be cut to 32 bits at the end. -/
theorem int32_add (x y : Int) : int32 (int32 x + y) = int32 (x + y) := by
  simp only [int32, BitVec.toInt_ofInt, Int.bmod_add_bmod]

/-- Byte number `k` of a word. -/
def wordByte (w : BitVec 32) (k : Nat) : UInt8 := UInt8.ofNat (w.toNat / 256 ^ k)

/-- A word stored at `a`. -/
def putWord (b : Bytes) (a : Nat) (w : BitVec 32) : Bytes := fun i =>
  if a ≤ i ∧ i < a + 4 then wordByte w (i - a) else b i

/-- The word stored at `a`. -/
def getWord (b : Bytes) (a : Nat) : BitVec 32 :=
  BitVec.ofNat 32 ((b a).toNat + 256 * (b (a + 1)).toNat + 256 ^ 2 * (b (a + 2)).toNat
    + 256 ^ 3 * (b (a + 3)).toNat)

section Words

variable {b b' : Bytes} {a a' i : Nat} {w : BitVec 32}

theorem putWord_add (hi : i < 4) : putWord b a w (a + i) = wordByte w i := by
  have hin : a ≤ a + i ∧ a + i < a + 4 := by omega
  rw [putWord, if_pos hin, Nat.add_sub_cancel_left]

theorem putWord_of_lt (h : i < a) : putWord b a w i = b i := by
  have hout : ¬ (a ≤ i ∧ i < a + 4) := by omega
  rw [putWord, if_neg hout]

theorem putWord_of_ge (h : a + 4 ≤ i) : putWord b a w i = b i := by
  have hout : ¬ (a ≤ i ∧ i < a + 4) := by omega
  rw [putWord, if_neg hout]

theorem getWord_congr (h : ∀ i < 4, b (a + i) = b' (a' + i)) : getWord b a = getWord b' a' := by
  have h0 : b a = b' a' := h 0 (by omega)
  rw [getWord, getWord, h0, h 1 (by omega), h 2 (by omega), h 3 (by omega)]

theorem toNat_wordByte (w : BitVec 32) (k : Nat) :
    (wordByte w k).toNat = w.toNat / 256 ^ k % 256 := by
  rw [wordByte, UInt8.toNat_ofNat']

/-- The value of the four bytes of a word is the word. -/
theorem getWord_of_wordByte (h : ∀ i < 4, b (a + i) = wordByte w i) : getWord b a = w := by
  have h0 : b a = wordByte w 0 := h 0 (by omega)
  have hw := w.isLt
  apply BitVec.eq_of_toNat_eq
  rw [getWord, BitVec.toNat_ofNat, h0, h 1 (by omega), h 2 (by omega), h 3 (by omega)]
  simp only [toNat_wordByte]
  omega

@[simp] theorem getWord_putWord : getWord (putWord b a w) a = w :=
  getWord_of_wordByte fun _ hi => putWord_add hi

/-- Words that do not overlap. -/
theorem getWord_putWord_of_disjoint (h : a' + 4 ≤ a ∨ a + 4 ≤ a') :
    getWord (putWord b a w) a' = getWord b a' := by
  refine getWord_congr fun i hi => ?_
  rcases h with h | h
  · exact putWord_of_lt (by omega)
  · exact putWord_of_ge (by omega)

end Words

end Nachos
