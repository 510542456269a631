/-
  Arrays of bytes that are scattered over the blocks of a store.

  A store has numbered blocks of `size` bytes.  A list of block numbers `S` stands for an array: byte `p`
  is in block `S[p / size]`, at offset `p % size`.  Whole blocks are all a store can load and save; so
  an access to a part of the array goes through a buffer that covers the blocks it touches.

  * `Blocks.loads` — the blocks from number `first` on are loaded into a buffer one by one; the buffer is
    then the array from `first * size` on (`loads_apply`);
  * `Blocks.saves` — they are saved from a buffer; then the array IS the buffer there, it is what it was
    elsewhere (`array_saves`), and no other block has changed (`saves_of_notMem`).  The list must not
    have a block twice.

  Loops that can fail are related to these by `foldlM_eq_some_foldl`.
-/
import Mathlib.Data.List.GetD
import Mathlib.Data.List.Nodup
import Mathlib.Logic.Function.Basic
import Nachos.Lib.Bytes

namespace Nachos

/-- A loop no iteration of which fails. -/
theorem foldlM_eq_some_foldl {α β : Type} {f : β → α → Option β} {g : β → α → β} :
    ∀ (l : List α) (b : β), (∀ b, ∀ a ∈ l, f b a = some (g b a)) → l.foldlM f b = some (l.foldl g b) := by
  intro l
  induction l with
  | nil => exact fun _ _ => rfl
  | cons a rest ih =>
    intro b h
    rw [List.foldlM_cons, h b a (List.mem_cons_self ..), List.foldl_cons]
    exact ih (g b a) fun b a' ha' => h b a' (List.mem_cons_of_mem _ ha')

/-- The contents of a block. -/
abbrev Block (size : Nat) := Fin size → UInt8

/-- A store of blocks. -/
abbrev Blocks (size : Nat) := Nat → Block size

variable {size : Nat}

section Loads

variable [NeZero size]

/-- A block as bytes in memory. -/
def Block.bytes (b : Block size) : Bytes := fun i => b (Fin.ofNat size i)

theorem Block.bytes_of_lt (b : Block size) {i : Nat} (h : i < size) : b.bytes i = b ⟨i, h⟩ := by
  have hmod : Fin.ofNat size i = ⟨i, h⟩ := Fin.ext (Nat.mod_eq_of_lt h)
  rw [Block.bytes, hmod]

/-- The array that is scattered over the blocks `S`. -/
def Blocks.array (store : Blocks size) (S : List Nat) : Bytes := fun p =>
  Block.bytes (store (S.getD (p / size) 0)) (p % size)

/-- Blocks that are not in the list have no part in the array. -/
theorem Blocks.array_congr {store store' : Blocks size} {S : List Nat} (h : ∀ b ∈ S, store' b = store b) {p : Nat}
    (hp : p / size < S.length) : store'.array S p = store.array S p := by
  have hmem : S.getD (p / size) 0 ∈ S := by
    rw [List.getD_eq_getElem _ _ hp]
    exact List.getElem_mem hp
  rw [Blocks.array, Blocks.array, h _ hmem]

/-! ## Loading -/

/-- `n` blocks of the array, from number `first` on, are loaded into a buffer. -/
def Blocks.loads (store : Blocks size) (S : List Nat) (first n : Nat) (buf : Bytes) : Bytes :=
  (List.range n).foldl
    (fun buf k => bcopy (Block.bytes (store (S.getD (first + k) 0))) 0 buf (k * size) size) buf

theorem Blocks.loads_succ (store : Blocks size) (S : List Nat) (first n : Nat) (buf : Bytes) :
    store.loads S first (n + 1) buf
      = bcopy (Block.bytes (store (S.getD (first + n) 0))) 0 (store.loads S first n buf) (n * size) size := by
  rw [Blocks.loads, List.range_succ, List.foldl_append]
  rfl

theorem Blocks.loads_apply (store : Blocks size) (S : List Nat) (first : Nat) (buf : Bytes) :
    ∀ (n q : Nat), q < n * size → store.loads S first n buf q = store.array S (first * size + q) := by
  have hpos : 0 < size := Nat.pos_of_neZero size
  intro n
  induction n with
  | zero =>
    intro q hq
    rw [Nat.zero_mul] at hq
    omega
  | succ n ih =>
    intro q hq
    rw [Blocks.loads_succ]
    by_cases hlast : n * size ≤ q
    · -- the block that was loaded last
      obtain ⟨i, rfl⟩ := Nat.exists_eq_add_of_le hlast
      have hi : i < size := by
        rw [Nat.succ_mul] at hq
        omega
      have hdiv : (first * size + (n * size + i)) / size = first + n := by
        rw [← Nat.add_assoc, ← Nat.add_mul, Nat.mul_comm, Nat.mul_add_div hpos, Nat.div_eq_of_lt hi,
          Nat.add_zero]
      have hmod : (first * size + (n * size + i)) % size = i := by
        rw [← Nat.add_assoc, ← Nat.add_mul, Nat.mul_comm, Nat.mul_add_mod, Nat.mod_eq_of_lt hi]
      rw [bcopy_add hi, Blocks.array, hdiv, hmod, Nat.zero_add]
    · rw [bcopy_of_lt (Nat.lt_of_not_le hlast)]
      exact ih q (Nat.lt_of_not_le hlast)

end Loads

/-! ## Saving -/

namespace Blocks

/-- `n` blocks of the array, from number `first` on, are saved from a buffer. -/
def saves (store : Blocks size) (S : List Nat) (first n : Nat) (buf : Bytes) : Blocks size :=
  (List.range n).foldl
    (fun store k => Function.update store (S.getD (first + k) 0) fun i => buf (k * size + i)) store

theorem saves_succ (store : Blocks size) (S : List Nat) (first n : Nat) (buf : Bytes) :
    store.saves S first (n + 1) buf
      = Function.update (store.saves S first n buf) (S.getD (first + n) 0) fun i => buf (n * size + i) := by
  rw [saves, List.range_succ, List.foldl_append]
  rfl

variable {S : List Nat} {first : Nat}

/-- Blocks outside of the list are left alone. -/
theorem saves_of_notMem (store : Blocks size) (buf : Bytes) {b : Nat} (hb : b ∉ S) :
    ∀ n, first + n ≤ S.length → store.saves S first n buf b = store b := by
  intro n
  induction n with
  | zero => exact fun _ => rfl
  | succ n ih =>
    intro hn
    have hne : b ≠ S.getD (first + n) 0 := by
      rintro rfl
      rw [List.getD_eq_getElem _ _ (show first + n < S.length by omega)] at hb
      exact hb (List.getElem_mem _)
    rw [saves_succ, Function.update_of_ne hne]
    exact ih (by omega)

/-- Block number `j` of the list: saved from the buffer if it is one of the `n`. -/
theorem saves_getD (hS : S.Nodup) (store : Blocks size) (buf : Bytes) {j : Nat} (hj : j < S.length) :
    ∀ n, first + n ≤ S.length → store.saves S first n buf (S.getD j 0)
      = if first ≤ j ∧ j < first + n then (fun i => buf ((j - first) * size + i) : Block size)
        else store (S.getD j 0) := by
  intro n
  induction n with
  | zero =>
    intro _
    have hout : ¬ (first ≤ j ∧ j < first + 0) := by omega
    rw [if_neg hout]
    rfl
  | succ n ih =>
    intro hn
    rw [saves_succ]
    by_cases hlast : j = first + n
    · subst hlast
      have hin : first ≤ first + n ∧ first + n < first + (n + 1) := by omega
      rw [Function.update_self, if_pos hin, Nat.add_sub_cancel_left]
    · have hne : S.getD j 0 ≠ S.getD (first + n) 0 := by
        rw [List.getD_eq_getElem _ _ hj, List.getD_eq_getElem _ _ (show first + n < S.length by omega)]
        intro heq
        exact hlast ((hS.getElem_inj_iff).mp heq)
      rw [Function.update_of_ne hne, ih (by omega)]
      have hiff : (first ≤ j ∧ j < first + n) ↔ (first ≤ j ∧ j < first + (n + 1)) := by omega
      simp only [hiff]

/-- **What a save does to the array.** -/
theorem array_saves [NeZero size] (hS : S.Nodup) (store : Blocks size) (buf : Bytes) {n : Nat}
    (hn : first + n ≤ S.length) {p : Nat} (hp : p / size < S.length) :
    (store.saves S first n buf).array S p
      = if first * size ≤ p ∧ p < (first + n) * size then buf (p - first * size)
        else store.array S p := by
  have hpos : 0 < size := Nat.pos_of_neZero size
  have hlow : first * size ≤ p ↔ first ≤ p / size := (Nat.le_div_iff_mul_le hpos).symm
  have hhigh : p < (first + n) * size ↔ p / size < first + n := (Nat.div_lt_iff_lt_mul hpos).symm
  rw [array, saves_getD hS store buf hp n hn]
  simp only [hlow, hhigh]
  by_cases hin : first ≤ p / size ∧ p / size < first + n
  · have hoffset : (p / size - first) * size + p % size = p - first * size := by
      have hsplit := Nat.div_add_mod p size
      have hle : first * size ≤ p / size * size := Nat.mul_le_mul_right _ hin.1
      rw [Nat.mul_comm] at hsplit
      rw [Nat.sub_mul]
      omega
    rw [if_pos hin, if_pos hin, Block.bytes_of_lt _ (Nat.mod_lt _ hpos), hoffset]
  · rw [if_neg hin, if_neg hin, array]

end Blocks

end Nachos
