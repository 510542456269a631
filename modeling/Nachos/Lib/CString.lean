/-
  Strings of C, compared and copied up to a length.

  A string is a piece of memory that is read up to the first 0.  `strncmp` and `strncpy` look at no more
  than `n` characters; to them a string is its first `n` characters, up to the 0 (`cstring`):

  * `strncmp` finds no difference exactly between strings with the same `cstring` (`strncmp_iff`);
  * what `strncpy` leaves has the `cstring` of its source, though it may leave no 0 behind it
    (`cstring_strncpy`), and it changes nothing but its `n` bytes (`strncpy_of_outside`).

  Of a string with a 0 at its end (`CString`) these are the first `n` of its characters (`CString.cstring_eq_take`).
-/
import Nachos.Lib.Bytes

namespace Nachos

/-- The string at `i`, or the first `n` characters of it. -/
def cstring (b : Bytes) (i : Nat) : Nat → List UInt8
  | 0 => []
  | n + 1 => if b i = 0 then [] else b i :: cstring b (i + 1) n

/-- `!strncmp(s + i, t + j, n)`. -/
def strncmp (s : Bytes) (i : Nat) (t : Bytes) (j : Nat) : Nat → Bool
  | 0 => true
  | n + 1 => if s i ≠ t j then false else if s i = 0 then true else strncmp s (i + 1) t (j + 1) n

/-- `strncpy(dst + d, src, n)`: the string, and then zeros. -/
def strncpy (dst : Bytes) (d : Nat) (src : Bytes) (n : Nat) : Bytes := fun a =>
  if d ≤ a ∧ a < d + n then
    if (List.range (a - d)).any (fun k => src k == 0) then 0 else src (a - d)
  else dst a

theorem strncmp_iff (s t : Bytes) : ∀ (n i j : Nat),
    strncmp s i t j n = true ↔ cstring s i n = cstring t j n := by
  intro n
  induction n with
  | zero =>
    intro i j
    exact iff_of_true rfl rfl
  | succ n ih =>
    intro i j
    rw [strncmp, cstring, cstring]
    by_cases hne : s i ≠ t j
    · -- the strings differ here, or one of them ends here
      rw [if_pos hne]
      refine iff_of_false Bool.false_ne_true fun heq => hne ?_
      by_cases hs : s i = 0
      · rw [if_pos hs] at heq
        by_cases ht : t j = 0
        · rw [hs, ht]
        · rw [if_neg ht] at heq
          cases heq
      · rw [if_neg hs] at heq
        by_cases ht : t j = 0
        · rw [if_pos ht] at heq
          cases heq
        · rw [if_neg ht] at heq
          exact (List.cons.inj heq).1
    · have heq : s i = t j := Classical.not_not.mp hne
      rw [if_neg hne, heq]
      by_cases hzero : t j = 0
      · rw [if_pos hzero, if_pos hzero, if_pos hzero]
        exact iff_of_true rfl rfl
      · rw [if_neg hzero, if_neg hzero, if_neg hzero, ih]
        constructor
        · intro h
          rw [h]
        · intro h
          exact (List.cons.inj h).2

theorem strncpy_of_outside {dst src : Bytes} {d n a : Nat} (h : a < d ∨ d + n ≤ a) :
    strncpy dst d src n a = dst a := by
  have hout : ¬ (d ≤ a ∧ a < d + n) := by omega
  rw [strncpy, if_neg hout]

/-- A string depends on the characters that are read. -/
theorem cstring_congr {b b' : Bytes} : ∀ (n i i' : Nat), (∀ k < n, b (i + k) = b' (i' + k)) →
    cstring b i n = cstring b' i' n := by
  intro n
  induction n with
  | zero => exact fun _ _ _ => rfl
  | succ n ih =>
    intro i i' h
    have hhead : b i = b' i' := h 0 (Nat.succ_pos n)
    have htail : cstring b (i + 1) n = cstring b' (i' + 1) n := by
      refine ih _ _ fun k hk => ?_
      have hk' := h (k + 1) (by omega)
      rw [Nat.add_right_comm, Nat.add_right_comm i' 1 k]
      exact hk'
    rw [cstring, cstring, hhead, htail]

/-- The string that was copied.  The induction is on what is left of it, behind `k` characters none of
    which is 0. -/
theorem cstring_strncpy (dst src : Bytes) (d n : Nat) :
    cstring (strncpy dst d src n) d n = cstring src 0 n := by
  have hrest : ∀ m k, k + m = n → (∀ j < k, src j ≠ 0) →
      cstring (strncpy dst d src n) (d + k) m = cstring src k m := by
    intro m
    induction m with
    | zero => exact fun _ _ _ => rfl
    | succ m ih =>
      intro k hk hpast
      have hin : d ≤ d + k ∧ d + k < d + n := by omega
      have hany : ¬ (List.range (d + k - d)).any (fun k => src k == 0) = true := by
        intro hany
        obtain ⟨j, hj, hzero⟩ := List.any_eq_true.mp hany
        rw [List.mem_range, Nat.add_sub_cancel_left] at hj
        exact hpast j hj (beq_iff_eq.mp hzero)
      have hchar : strncpy dst d src n (d + k) = src k := by
        rw [strncpy, if_pos hin, if_neg hany, Nat.add_sub_cancel_left]
      rw [cstring, cstring, hchar]
      by_cases hzero : src k = 0
      · rw [if_pos hzero, if_pos hzero]
      · rw [if_neg hzero, if_neg hzero, Nat.add_assoc]
        rw [ih (k + 1) (by omega) fun j hj => ?_]
        rcases Nat.lt_succ_iff_lt_or_eq.mp hj with hlt | rfl
        · exact hpast j hlt
        · exact hzero
  have hall := hrest n 0 (Nat.zero_add n) fun j hj => absurd hj (Nat.not_lt_zero j)
  exact hall

/-- **A string**: characters other than 0, and a 0 behind the last.  Behind the 0 there may be anything. -/
structure CString where
  memory : Bytes
  length : Nat
  nonzero : ∀ i < length, memory i ≠ 0
  terminated : memory length = 0

namespace CString

/-- The characters of a string, without the 0. -/
def chars (s : CString) : List UInt8 := slice s.memory 0 s.length

/-- **The first characters** of a string.  The induction is on their number, behind `k` characters of the string. -/
theorem cstring_eq_take (s : CString) (n : Nat) : cstring s.memory 0 n = s.chars.take n := by
  have hrest : ∀ n k, k ≤ s.length → cstring s.memory k n = (slice s.memory k (s.length - k)).take n := by
    intro n
    induction n with
    | zero =>
      intro k _
      rw [List.take_zero]
      rfl
    | succ n ih =>
      intro k hk
      rw [cstring]
      rcases Nat.lt_or_eq_of_le hk with hlt | rfl
      · have hsplit : slice s.memory k (s.length - k) = s.memory k :: slice s.memory (k + 1) (s.length - (k + 1)) := by
          rw [show s.length - k = 1 + (s.length - (k + 1)) by omega, slice_add]
          rfl
        rw [if_neg (s.nonzero k hlt), ih (k + 1) hlt, hsplit, List.take_succ_cons]
      · rw [if_pos s.terminated, Nat.sub_self]
        rfl
  exact hrest n 0 (Nat.zero_le _)

end CString

end Nachos
