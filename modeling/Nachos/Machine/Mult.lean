/-
  `machine/mipssim.cc` — `Mult`: THE 64-BIT PRODUCT, by shifting and adding on two words.

  The loop goes over the bits of `a`, from the lowest: where the bit is set it adds `b` to `hi:lo`, and it doubles `b` (in
  `bHi:bLo`) from round to round.  With `n` rounds to go it still adds `b` times the low `n` bits of `a`
  (`multLoop_spec`).  Two things might go wrong and do not:

  * `a` is an `int`, so that `a >>= 1` copies the sign bit.  But after `i` rounds only the low `32 - i` bits of `a` are
    still to be seen, and those are right.

  * The loop stops when no bit but the lowest is set.  Then the number that is left is 1.

  Signed operands are made positive first, and the product is negated if the signs differ: the least `int`, which is its
  own negation, is right as an unsigned number.
-/
import Mathlib.Data.BitVec
import Nachos.Lib.DoubleWord
import Nachos.Machine.Mipssim

namespace Nachos

/-! ## The loop -/

section Loop

variable {a b bHi bLo hi lo : BitVec 32} {n : Nat}

theorem toNat_and_one (a : BitVec 32) : (a &&& 1).toNat = a.toNat % 2 := by
  rw [BitVec.toNat_and]
  exact Nat.and_two_pow_sub_one_eq_mod a.toNat 1

theorem odd_iff : a &&& 1 ≠ 0 ↔ a.toNat % 2 = 1 := by
  rw [← toNat_and_one]
  constructor
  · intro h
    have hne : (a &&& 1).toNat ≠ 0 := fun hzero => h (BitVec.eq_of_toNat_eq hzero)
    have hlt : (a &&& 1).toNat < 2 := by
      rw [toNat_and_one]
      omega
    omega
  · intro h hzero
    rw [hzero] at h
    cases h

/-- No bit but the lowest: the loop is done. -/
theorem eq_one_of_done (hodd : a &&& 1 ≠ 0) (hdone : a &&& 0xfffffffe = 0) : a = 1 := by
  have hsplit : a = (a &&& 1) ||| (a &&& 0xfffffffe) := by
    rw [← BitVec.and_or_distrib_left]
    exact (BitVec.and_allOnes).symm
  have hone : a &&& 1 = 1 := by
    apply BitVec.eq_of_toNat_eq
    rw [toNat_and_one]
    exact odd_iff.mp hodd
  rw [hsplit, hone, hdone]
  rfl

/-- The shift copies the sign bit, but the bits below are those of `a / 2`. -/
theorem toNat_sshiftRight_mod (hn : n ≤ 31) : (a.sshiftRight 1).toNat % 2 ^ n = a.toNat / 2 % 2 ^ n := by
  apply Nat.eq_of_testBit_eq
  intro i
  rw [Nat.testBit_mod_two_pow, Nat.testBit_mod_two_pow, BitVec.testBit_toNat, Nat.testBit_div_two, BitVec.testBit_toNat,
    BitVec.getLsbD_sshiftRight]
  by_cases hi : i < n
  · have hlow : 1 + i < 32 := by omega
    have hin : ¬ 32 ≤ i := by omega
    rw [if_pos hlow, decide_eq_false hin, Nat.add_comm 1 i]
    rfl
  · simp [hi]

/-- The bits of a number, the lowest apart. -/
theorem mod_two_pow_succ (x n : Nat) : x % 2 ^ (n + 1) = x % 2 + 2 * (x / 2 % 2 ^ n) := by
  rw [Nat.pow_succ', Nat.mod_mul]

theorem shiftLeft_one_eq (x : BitVec 64) : x <<< 1 = 2 * x := by
  apply BitVec.eq_of_toNat_eq
  rw [DoubleWord.toNat_shiftLeft_one, BitVec.toNat_mul]
  rfl

/-- `b` is doubled. -/
theorem double_b (bHi bLo : BitVec 32) :
    ((if bLo &&& 0x80000000 ≠ 0 then bHi <<< 1 ||| 1 else bHi <<< 1) ++ (bLo <<< 1) : BitVec 64) =
      2 * (bHi ++ bLo : BitVec 64) := by
  have hmsb : bLo &&& 0x80000000 ≠ 0 ↔ bLo.msb = true := by
    rw [← signBit_eq_msb, signBit, decide_eq_true_iff]
  rw [← shiftLeft_one_eq]
  refine Eq.trans ?_ (DoubleWord.append_shiftLeft_one bHi bLo)
  by_cases h : bLo.msb = true
  · rw [if_pos (hmsb.mpr h), if_pos h]
    rfl
  · rw [if_neg (mt hmsb.mp h), if_neg h]

/-- **With `n` rounds to go**, `b` times the low `n` bits of `a` is still to be added. -/
theorem multLoop_spec : ∀ n : Nat, n ≤ 32 → ∀ a bHi bLo hi lo : BitVec 32,
    ((multLoop n a bHi bLo hi lo).1 ++ (multLoop n a bHi bLo hi lo).2 : BitVec 64) =
      (hi ++ lo : BitVec 64) + ((a.toNat % 2 ^ n : Nat) : BitVec 64) * (bHi ++ bLo : BitVec 64) := by
  intro n
  induction n with
  | zero =>
    intro _ a bHi bLo hi lo
    rw [multLoop, Nat.pow_zero, Nat.mod_one, Nat.cast_zero]
    ring
  | succ n ih =>
    intro hn a bHi bLo hi lo
    simp only [multLoop]
    by_cases hodd : a &&& 1 ≠ 0
    · rw [if_pos hodd]
      by_cases hdone : a &&& 0xfffffffe = 0
      · -- `a` is 1, and there is nothing more to add
        have hone : a.toNat % 2 ^ (n + 1) = 1 := by
          rw [eq_one_of_done hodd hdone]
          exact Nat.mod_eq_of_lt (Nat.one_lt_two_pow (by omega))
        rw [if_pos hdone, hone, Nat.cast_one, one_mul]
        exact DoubleWord.append_add hi lo bHi bLo
      · have hadd : (((if lo + bLo < bLo then hi + 1 else hi) + bHi) ++ (lo + bLo) : BitVec 64) =
            (hi ++ lo : BitVec 64) + (bHi ++ bLo : BitVec 64) := DoubleWord.append_add hi lo bHi bLo
        rw [if_neg hdone, ih (by omega), hadd, double_b, toNat_sshiftRight_mod (by omega), mod_two_pow_succ,
          odd_iff.mp hodd, Nat.cast_add, Nat.cast_mul, Nat.cast_one, Nat.cast_ofNat]
        ring
    · have heven : a.toNat % 2 = 0 := by
        have hmod := mt odd_iff.mpr hodd
        omega
      rw [if_neg hodd, ih (by omega), double_b, toNat_sshiftRight_mod (by omega), mod_two_pow_succ, heven, Nat.zero_add,
        Nat.cast_mul, Nat.cast_ofNat]
      ring

/-- **The loop** computes the product of two unsigned numbers. -/
theorem toNat_multLoop (a b : BitVec 32) :
    ((multLoop 32 a 0 b 0 0).1 ++ (multLoop 32 a 0 b 0 0).2 : BitVec 64).toNat = a.toNat * b.toNat := by
  have ha := a.isLt
  have hb := b.isLt
  have hlt : a.toNat * b.toNat < 2 ^ 64 := by
    calc a.toNat * b.toNat
      _ < 2 ^ 32 * 2 ^ 32 := Nat.mul_lt_mul'' ha hb
      _ = 2 ^ 64 := by norm_num
  have hbNat : ((0 : BitVec 32) ++ b : BitVec 64).toNat = b.toNat := by
    refine (DoubleWord.toNat_append 0 b).trans ?_
    rw [show (0 : BitVec 32).toNat = 0 from rfl, Nat.zero_mul, Nat.zero_add]
  have hzero : ((0 : BitVec 32) ++ (0 : BitVec 32) : BitVec 64) = 0 := rfl
  have haNat : ((a.toNat : Nat) : BitVec 64).toNat = a.toNat := by
    refine (BitVec.toNat_ofNat a.toNat 64).trans ?_
    omega
  rw [multLoop_spec 32 (Nat.le_refl 32), Nat.mod_eq_of_lt ha, hzero, zero_add, BitVec.toNat_mul, hbNat, haNat,
    Nat.mod_eq_of_lt hlt]

end Loop

/-! ## Signs -/

section Signs

variable (a b : BitVec 32)

/-- The operand that is multiplied is the absolute value, also for the least `int`. -/
theorem toNat_magnitude : (if signBit a then -a else a).toNat = a.toInt.natAbs := by
  have ha := a.isLt
  rw [signBit_eq_msb, BitVec.toInt_eq_msb_cond]
  have hmsb : a.msb = decide (2 ^ 31 ≤ a.toNat) := BitVec.msb_eq_decide a
  cases htop : a.msb with
  | true =>
    rw [htop] at hmsb
    have hlow := of_decide_eq_true hmsb.symm
    rw [if_pos rfl, if_pos rfl, BitVec.toNat_neg]
    omega
  | false =>
    rw [if_neg Bool.false_ne_true, if_neg Bool.false_ne_true]
    omega

theorem natAbs_le : a.toInt.natAbs ≤ 2 ^ 31 := by
  have hlow := BitVec.le_two_mul_toInt (x := a)
  have hhigh := BitVec.two_mul_toInt_lt (x := a)
  omega

/-- An operand is its absolute value, with its sign. -/
theorem signed_eq : (signBit a = true ∧ a.toInt = -a.toInt.natAbs) ∨ (signBit a = false ∧ a.toInt = a.toInt.natAbs) := by
  rw [signBit_eq_msb, BitVec.msb_eq_toInt]
  by_cases hneg : a.toInt < 0
  · exact Or.inl ⟨decide_eq_true hneg, by omega⟩
  · exact Or.inr ⟨decide_eq_false hneg, by omega⟩

theorem toInt_of_le {x : BitVec 64} (h : x.toNat ≤ 2 ^ 31 * 2 ^ 31) : x.toInt = x.toNat :=
  BitVec.toInt_eq_toNat_of_lt (by omega)

theorem toInt_neg_of_le {x : BitVec 64} (h : x.toNat ≤ 2 ^ 31 * 2 ^ 31) : (-x).toInt = -x.toNat := by
  rw [BitVec.toInt_neg, toInt_of_le h]
  exact Int.bmod_eq_of_le (by omega) (by omega)

/-- **The sign of a product.** -/
theorem signed_product {p : BitVec 64} (hp : p.toNat = a.toInt.natAbs * b.toInt.natAbs) :
    (if signBit a != signBit b then -p else p).toInt = a.toInt * b.toInt := by
  have hle : p.toNat ≤ 2 ^ 31 * 2 ^ 31 := by
    rw [hp]
    exact Nat.mul_le_mul (natAbs_le a) (natAbs_le b)
  have hpos := toInt_of_le hle
  have hneg := toInt_neg_of_le hle
  have ha := signed_eq a
  have hb := signed_eq b
  rw [hp, Nat.cast_mul] at hpos hneg
  generalize a.toInt.natAbs = x at ha hpos hneg
  generalize b.toInt.natAbs = y at hb hpos hneg
  rcases ha with ⟨hsa, ha⟩ | ⟨hsa, ha⟩
  · rcases hb with ⟨hsb, hb⟩ | ⟨hsb, hb⟩
    · rw [hsa, hsb, if_neg (by decide), hpos, ha, hb, Int.neg_mul_neg]
    · rw [hsa, hsb, if_pos (by decide), hneg, ha, hb, Int.neg_mul]
  · rcases hb with ⟨hsb, hb⟩ | ⟨hsb, hb⟩
    · rw [hsa, hsb, if_pos (by decide), hneg, ha, hb, Int.mul_neg]
    · rw [hsa, hsb, if_neg (by decide), hpos, ha, hb]

/-- **`Mult`**, as one number of 64 bits: the product of the operands, negated if the signs differ. -/
theorem mult_append (signedArith : Bool) (hne : ¬ (a = 0 ∨ b = 0)) :
    ((mult a b signedArith).1 ++ (mult a b signedArith).2 : BitVec 64) =
      let x := if signedArith && signBit a then -a else a
      let y := if signedArith && signBit b then -b else b
      let product : BitVec 64 := (multLoop 32 x 0 y 0 0).1 ++ (multLoop 32 x 0 y 0 0).2
      if (signedArith && signBit a) != (signedArith && signBit b) then -product else product := by
  simp only [mult, if_neg hne]
  by_cases hsign : ((signedArith && signBit a) != (signedArith && signBit b)) = true
  · rw [if_pos hsign, if_pos hsign]
    exact DoubleWord.append_neg _ _
  · rw [if_neg hsign, if_neg hsign]

end Signs

/-- **`Mult` IS MULTIPLICATION**: `hi:lo` is the 64-bit product, of signed and of unsigned numbers. -/
theorem mult_product (a b : BitVec 32) :
    ((mult a b true).1 ++ (mult a b true).2 : BitVec 64).toInt = a.toInt * b.toInt ∧
      ((mult a b false).1 ++ (mult a b false).2 : BitVec 64).toNat = a.toNat * b.toNat := by
  by_cases hzero : a = 0 ∨ b = 0
  · have hmult : ∀ signedArith, mult a b signedArith = (0, 0) := by
      intro signedArith
      rw [mult, if_pos hzero]
    rw [hmult, hmult]
    rcases hzero with rfl | rfl
    · exact ⟨by rw [show (0 : BitVec 32).toInt = 0 from rfl, Int.zero_mul]; rfl,
        by rw [show (0 : BitVec 32).toNat = 0 from rfl, Nat.zero_mul]; rfl⟩
    · exact ⟨by rw [show (0 : BitVec 32).toInt = 0 from rfl, Int.mul_zero]; rfl,
        by rw [show (0 : BitVec 32).toNat = 0 from rfl, Nat.mul_zero]; rfl⟩
  · rw [mult_append a b true hzero, mult_append a b false hzero]
    simp only [Bool.true_and, Bool.false_and, Bool.false_eq_true, if_false, bne_self_eq_false]
    refine ⟨?_, toNat_multLoop a b⟩
    apply signed_product
    rw [toNat_multLoop, toNat_magnitude, toNat_magnitude]

end Nachos
