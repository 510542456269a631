/-
  Half-open intervals of integers, and the COVER of a list of them.

  Intervals that do not overlap have as many elements together as their sizes add up to (`card_cover`).  So when they
  lie in an interval of just that size, they fill it; and only then is their union an interval of that size
  (`cover_eq_iff`).
-/
import Mathlib.Algebra.BigOperators.Group.List.Basic
import Mathlib.Algebra.GroupWithZero.Nat
import Mathlib.Data.Finset.Card

namespace Nachos

/-- The integers from `start` on, `size` of them. -/
structure Interval where
  start : Int
  size : Nat

namespace Interval

/-- The elements of an interval. -/
def cells (r : Interval) : Finset Int := (Finset.range r.size).image fun i : Nat => r.start + i

theorem mem_cells {r : Interval} {v : Int} : v ∈ r.cells ↔ r.start ≤ v ∧ v < r.start + r.size := by
  rw [cells, Finset.mem_image]
  constructor
  · rintro ⟨i, hi, rfl⟩
    have hlt : i < r.size := Finset.mem_range.mp hi
    omega
  · rintro ⟨hlow, hhigh⟩
    refine ⟨(v - r.start).toNat, Finset.mem_range.mpr ?_, ?_⟩ <;> omega

theorem card_cells (r : Interval) : r.cells.card = r.size := by
  have hinj : Function.Injective fun i : Nat => r.start + (i : Int) := by
    intro i j hij
    have heq : r.start + (i : Int) = r.start + j := hij
    omega
  rw [cells, Finset.card_image_of_injective _ hinj, Finset.card_range]

/-- All elements of the intervals of a list. -/
def cover : List Interval → Finset Int
  | [] => ∅
  | r :: rs => r.cells ∪ cover rs

/-- The sizes of the intervals of a list, added up. -/
def total (rs : List Interval) : Nat := (rs.map size).sum

theorem total_append (rs rs' : List Interval) : total (rs ++ rs') = total rs + total rs' := by
  rw [total, List.map_append, List.sum_append, total, total]

/-- No two intervals of the list overlap. -/
def Apart (rs : List Interval) : Prop := rs.Pairwise fun r r' => Disjoint r.cells r'.cells

theorem mem_cover {rs : List Interval} {v : Int} : v ∈ cover rs ↔ ∃ r ∈ rs, v ∈ r.cells := by
  induction rs with
  | nil => exact ⟨fun h => absurd h (Finset.notMem_empty v), fun ⟨r, hr, _⟩ => absurd hr List.not_mem_nil⟩
  | cons r rs ih =>
    rw [cover, Finset.mem_union, ih]
    constructor
    · rintro (hv | ⟨r', hr', hv⟩)
      · exact ⟨r, List.mem_cons_self .., hv⟩
      · exact ⟨r', List.mem_cons_of_mem r hr', hv⟩
    · rintro ⟨r', hr', hv⟩
      rcases List.mem_cons.mp hr' with rfl | hr'
      · exact Or.inl hv
      · exact Or.inr ⟨r', hr', hv⟩

/-- **Counting**: intervals that do not overlap. -/
theorem card_cover {rs : List Interval} (h : Apart rs) : (cover rs).card = total rs := by
  induction rs with
  | nil => rfl
  | cons r rs ih =>
    obtain ⟨hr, hrs⟩ := List.pairwise_cons.mp h
    have hdisjoint : Disjoint r.cells (cover rs) := by
      rw [Finset.disjoint_left]
      intro v hv hcover
      obtain ⟨r', hr', hv'⟩ := mem_cover.mp hcover
      exact Finset.disjoint_left.mp (hr r' hr') hv hv'
    rw [cover, Finset.card_union_of_disjoint hdisjoint, card_cells, ih hrs, total, total, List.map_cons, List.sum_cons]

/-- **Filling an interval**: intervals that do not overlap are together the interval `whole` IFF their sizes add up
    to its size and all of them lie in it. -/
theorem cover_eq_iff {rs : List Interval} (h : Apart rs) (whole : Interval) :
    cover rs = whole.cells ↔ total rs = whole.size ∧ ∀ r ∈ rs, r.cells ⊆ whole.cells := by
  constructor
  · intro heq
    refine ⟨?_, fun r hr v hv => ?_⟩
    · rw [← card_cover h, heq, card_cells]
    · rw [← heq]
      exact mem_cover.mpr ⟨r, hr, hv⟩
  · rintro ⟨htotal, hsub⟩
    apply Finset.eq_of_subset_of_card_le
    · intro v hv
      obtain ⟨r, hr, hv⟩ := mem_cover.mp hv
      exact hsub r hr hv
    · rw [card_cells, card_cover h, htotal]

/-- When an interval that is not empty lies in another. -/
theorem cells_subset_iff {r whole : Interval} (hr : 0 < r.size) :
    r.cells ⊆ whole.cells ↔ whole.start ≤ r.start ∧ r.start + r.size ≤ whole.start + whole.size := by
  constructor
  · intro hsub
    -- the first and the last element
    have hfirst := mem_cells.mp (hsub (mem_cells.mpr (⟨by omega, by omega⟩ : r.start ≤ r.start ∧ _)))
    have hlast := mem_cells.mp (hsub (mem_cells.mpr
      (⟨by omega, by omega⟩ : r.start ≤ r.start + r.size - 1 ∧ r.start + r.size - 1 < r.start + r.size)))
    omega
  · rintro ⟨hlow, hhigh⟩ v hv
    have hv' := mem_cells.mp hv
    exact mem_cells.mpr (by omega)

end Interval

end Nachos
