/-
  Numbers of 2w bits in two words of w bits.

  A word `hi` and a word `lo` are the number `hi ++ lo`.  Programs that have no arithmetic on 2w bits do it on the two
  words, the low one first, with a CARRY into the high one (`append_eq_of_carry`): they add, they double with the bit that
  leaves `lo`, and they negate by complement.  Each is what it should be, modulo 2^2w — whatever `w` is.
-/
import Mathlib.Algebra.Ring.Nat
import Mathlib.Tactic.Ring

namespace Nachos

namespace DoubleWord

variable {w : Nat}

theorem toNat_append (hi lo : BitVec w) : (hi ++ lo).toNat = hi.toNat * 2 ^ w + lo.toNat := by
  rw [BitVec.toNat_append, Nat.shiftLeft_eq, Nat.mul_comm, Nat.two_pow_add_eq_or_of_lt lo.isLt]

/-- **The low word, and the high word with the carry `c`**, make up `h` high and `l` low. -/
theorem append_eq_of_carry {hi lo : BitVec w} {x : BitVec (w + w)} {h l c : Nat} (hlow : l = c * 2 ^ w + lo.toNat)
    (hhigh : hi.toNat = (h + c) % 2 ^ w) (hx : x.toNat = (h * 2 ^ w + l) % 2 ^ (w + w)) : hi ++ lo = x := by
  apply BitVec.eq_of_toNat_eq
  have hlt : (hi ++ lo).toNat < 2 ^ (w + w) := BitVec.isLt _
  have hdiv := Nat.div_add_mod (h + c) (2 ^ w)
  rw [toNat_append, hhigh] at hlt ⊢
  have hsum : h * 2 ^ w + l = (h + c) % 2 ^ w * 2 ^ w + lo.toNat + (h + c) / 2 ^ w * 2 ^ (w + w) := by
    calc h * 2 ^ w + l
      _ = (h + c) * 2 ^ w + lo.toNat := by rw [hlow]; ring
      _ = (2 ^ w * ((h + c) / 2 ^ w) + (h + c) % 2 ^ w) * 2 ^ w + lo.toNat := by rw [hdiv]
      _ = _ := by rw [Nat.pow_add]; ring
  rw [hx, hsum, Nat.add_mul_mod_self_right, Nat.mod_eq_of_lt hlt]

theorem toNat_add_one (x : BitVec w) : (x + 1).toNat = (x.toNat + 1) % 2 ^ w := by
  have hone : (1 : BitVec w).toNat = 1 % 2 ^ w := BitVec.toNat_ofNat 1 w
  rw [BitVec.toNat_add, hone, Nat.add_mod_mod]

/-- **Addition.**  The low words overflow if their sum is less than one of them. -/
theorem append_add (hi lo bHi bLo : BitVec w) :
    ((if lo + bLo < bLo then hi + 1 else hi) + bHi) ++ (lo + bLo) = (hi ++ lo) + (bHi ++ bLo) := by
  have hlo := lo.isLt
  have hbLo := bLo.isLt
  have hx : ((hi ++ lo) + (bHi ++ bLo)).toNat =
      ((hi.toNat + bHi.toNat) * 2 ^ w + (lo.toNat + bLo.toNat)) % 2 ^ (w + w) := by
    rw [BitVec.toNat_add, toNat_append, toNat_append]
    congr 1
    ring
  by_cases hover : lo.toNat + bLo.toNat < 2 ^ w
  · have hsum : (lo + bLo).toNat = lo.toNat + bLo.toNat := by
      rw [BitVec.toNat_add, Nat.mod_eq_of_lt hover]
    have hcarry : ¬ lo + bLo < bLo := by
      rw [BitVec.lt_def]
      omega
    rw [if_neg hcarry]
    refine append_eq_of_carry (c := 0) (l := lo.toNat + bLo.toNat) (by omega) ?_ hx
    rw [BitVec.toNat_add, Nat.add_zero]
  · have hsum : (lo + bLo).toNat = lo.toNat + bLo.toNat - 2 ^ w := by
      rw [BitVec.toNat_add, Nat.mod_eq_sub_mod (by omega), Nat.mod_eq_of_lt (by omega)]
    have hcarry : lo + bLo < bLo := by
      rw [BitVec.lt_def]
      omega
    rw [if_pos hcarry]
    refine append_eq_of_carry (c := 1) (l := lo.toNat + bLo.toNat) (by omega) ?_ hx
    rw [BitVec.toNat_add, toNat_add_one, Nat.mod_add_mod]
    congr 1
    omega

theorem toNat_shiftLeft_one (x : BitVec w) : (x <<< 1).toNat = 2 * x.toNat % 2 ^ w := by
  rw [BitVec.toNat_shiftLeft, Nat.shiftLeft_eq, Nat.mul_comm, Nat.pow_one]

/-- The lowest bit, after a shift. -/
theorem shiftLeft_one_or_one (x : BitVec w) : x <<< 1 ||| 1#w = x <<< 1 + 1#w := by
  have hand : x <<< 1 &&& 1#w = 0#w := by
    apply BitVec.eq_of_getLsbD_eq
    intro i hi
    cases i with
    | zero => simp
    | succ i => simp
  exact (BitVec.add_eq_or_of_and_eq_zero _ _ hand).symm

/-- **Doubling.**  The top bit of the low word becomes the lowest bit of the high word. -/
theorem append_shiftLeft_one (hi lo : BitVec w) :
    (if lo.msb then hi <<< 1 ||| 1#w else hi <<< 1) ++ (lo <<< 1) = (hi ++ lo) <<< 1 := by
  have hlo := lo.isLt
  have hx : ((hi ++ lo) <<< 1).toNat = (2 * hi.toNat * 2 ^ w + 2 * lo.toNat) % 2 ^ (w + w) := by
    rw [toNat_shiftLeft_one, toNat_append]
    congr 1
    ring
  have hmsb : lo.msb = decide (2 ^ (w - 1) ≤ lo.toNat) := BitVec.msb_eq_decide lo
  cases w with
  | zero => exact BitVec.eq_of_toNat_eq (by simp)
  | succ n =>
    have hpow : 2 ^ (n + 1) = 2 * 2 ^ n := Nat.pow_succ'
    by_cases htop : 2 ^ n ≤ lo.toNat
    · have hlow : (lo <<< 1).toNat = 2 * lo.toNat - 2 ^ (n + 1) := by
        rw [toNat_shiftLeft_one, Nat.mod_eq_sub_mod (by omega), Nat.mod_eq_of_lt (by omega)]
      rw [hmsb, if_pos (by simpa using htop), shiftLeft_one_or_one]
      refine append_eq_of_carry (c := 1) (l := 2 * lo.toNat) (by omega) ?_ hx
      exact (toNat_add_one _).trans (by rw [toNat_shiftLeft_one, Nat.mod_add_mod])
    · have hlow : (lo <<< 1).toNat = 2 * lo.toNat := by
        rw [toNat_shiftLeft_one, Nat.mod_eq_of_lt (by omega)]
      rw [hmsb, if_neg (by simpa using htop)]
      refine append_eq_of_carry (c := 0) (l := 2 * lo.toNat) (by omega) ?_ hx
      exact toNat_shiftLeft_one hi

/-- **Negation.**  The complement of both words, and one more. -/
theorem append_neg (hi lo : BitVec w) :
    (if ~~~lo + 1 = 0 then ~~~hi + 1 else ~~~hi) ++ (~~~lo + 1) = -(hi ++ lo) := by
  have hhi := hi.isLt
  have hlo := lo.isLt
  have hneg : ~~~lo + 1 = -lo := (BitVec.neg_eq_not_add lo).symm
  have hx : (-(hi ++ lo)).toNat = ((2 ^ w - 1 - hi.toNat) * 2 ^ w + (2 ^ w - lo.toNat)) % 2 ^ (w + w) := by
    have hle : (hi.toNat + 1) * 2 ^ w ≤ 2 ^ w * 2 ^ w := Nat.mul_le_mul_right _ hhi
    have hsucc : (hi.toNat + 1) * 2 ^ w = hi.toNat * 2 ^ w + 2 ^ w := Nat.succ_mul _ _
    rw [BitVec.toNat_neg, toNat_append, Nat.pow_add, Nat.sub_sub, Nat.add_comm 1, Nat.sub_mul]
    congr 1
    omega
  rw [hneg]
  by_cases hzero : lo.toNat = 0
  · have hlozero : (-lo).toNat = 0 := by
      rw [BitVec.toNat_neg, hzero, Nat.sub_zero, Nat.mod_self]
    rw [if_pos (BitVec.eq_of_toNat_eq (by rw [hlozero]; simp))]
    refine append_eq_of_carry (c := 1) (l := 2 ^ w - lo.toNat) (by omega) ?_ hx
    rw [toNat_add_one, BitVec.toNat_not]
  · have hlopos : (-lo).toNat = 2 ^ w - lo.toNat := by
      rw [BitVec.toNat_neg, Nat.mod_eq_of_lt (by omega)]
    have hne : ¬ -lo = 0 := by
      intro h
      rw [h] at hlopos
      simp at hlopos
      omega
    rw [if_neg hne]
    refine append_eq_of_carry (c := 0) (l := 2 ^ w - lo.toNat) (by omega) ?_ hx
    rw [BitVec.toNat_not, Nat.add_zero, Nat.mod_eq_of_lt (by omega)]

end DoubleWord

end Nachos
