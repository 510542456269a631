/-
  Computations that RECORD what they use.

  A computation of this kind has a result, or none if it does not return, and a list of what it has used: the
  indices of tables, say.  The list is there whether it returns or not.

  1. **Everything used is `P`** (`Within`) — and how that follows through a sequence of computations.

  2. **Loops with fuel** (`Grows`) — with more fuel a computation only goes on: what it has used so far stays, and a
     result stays.  Then what the whole of a sequence may use can be said of its parts (`forall_within_bind`).

  3. **The search for a free entry** (`firstFree`), `while (used[i]) i++`, in a table of `size` entries: the entries
     looked at are those before the first free one, and that one.  If there is none, the entry after the table is
     looked at, too (`within_firstFree`).
-/
import Mathlib.Data.List.Basic

namespace Nachos

/-- A computation, with what it has used. -/
structure Traced (ι α : Type) where
  used : List ι
  result : Option α

namespace Traced

variable {ι α β : Type} {P : ι → Prop}

instance : Monad (Traced ι) where
  pure a := ⟨[], some a⟩
  bind x f :=
    match x.result with
    | none => ⟨x.used, none⟩
    | some a => ⟨x.used ++ (f a).used, (f a).result⟩

/-- A computation that uses nothing. -/
def ofOption (x : Option α) : Traced ι α := ⟨[], x⟩

/-- It does not return. -/
def stop : Traced ι α := ⟨[], none⟩

/-- The use of `i`; what follows is outside the model if `i` is not `inside`. -/
def use (i : ι) (inside : Prop) [Decidable inside] : Traced ι Unit := ⟨[i], if inside then some () else none⟩

/-! ## Everything used -/

/-- Everything used is `P`. -/
def Within (P : ι → Prop) (x : Traced ι α) : Prop := ∀ i ∈ x.used, P i

@[simp] theorem within_pure (a : α) : Within P (pure a : Traced ι α) := fun _ h => absurd h List.not_mem_nil

@[simp] theorem within_ofOption (x : Option α) : Within P (ofOption x : Traced ι α) :=
  fun _ h => absurd h List.not_mem_nil

@[simp] theorem within_stop : Within P (stop : Traced ι α) := fun _ h => absurd h List.not_mem_nil

@[simp] theorem within_use (i : ι) (inside : Prop) [Decidable inside] : Within P (use i inside) ↔ P i :=
  List.forall_mem_singleton

/-- **Sequencing**: what the first uses, and what the second uses if it comes to it. -/
theorem within_bind {x : Traced ι α} {f : α → Traced ι β} :
    Within P (x >>= f) ↔ Within P x ∧ ∀ a, x.result = some a → Within P (f a) := by
  obtain ⟨used, result⟩ := x
  cases result with
  | none => exact ⟨fun h => ⟨h, fun a ha => by cases ha⟩, fun h => h.1⟩
  | some a =>
    constructor
    · intro h
      refine ⟨fun i hi => h i (List.mem_append.mpr (Or.inl hi)), fun b hb => ?_⟩
      cases hb
      exact fun i hi => h i (List.mem_append.mpr (Or.inr hi))
    · rintro ⟨hx, hf⟩ i hi
      rcases List.mem_append.mp hi with hi | hi
      · exact hx i hi
      · exact hf a rfl i hi

@[simp] theorem result_ofOption (x : Option α) : (ofOption x : Traced ι α).result = x := rfl

@[simp] theorem result_use (i : ι) (inside : Prop) [Decidable inside] :
    (use i inside).result = if inside then some () else none := rfl

theorem result_bind {x : Traced ι α} {f : α → Traced ι β} :
    (x >>= f).result = x.result.bind fun a => (f a).result := by
  obtain ⟨used, result⟩ := x
  cases result with
  | none => rfl
  | some a => rfl

theorem within_use_bind {i : ι} {inside : Prop} [Decidable inside] {f : Unit → Traced ι β} :
    Within P (use i inside >>= f) ↔ P i ∧ (inside → Within P (f ())) := by
  rw [within_bind, within_use, result_use]
  constructor
  · rintro ⟨hi, hf⟩
    exact ⟨hi, fun hin => hf () (if_pos hin)⟩
  · rintro ⟨hi, hf⟩
    refine ⟨hi, fun a ha => ?_⟩
    by_cases hin : inside
    · exact hf hin
    · rw [if_neg hin] at ha
      cases ha

/-! ## Loops with fuel -/

/-- `x` is `y`, cut short if it has no result. -/
def Cut (x y : Traced ι α) : Prop := x = y ∨ x.result = none ∧ ∃ rest, y.used = x.used ++ rest

theorem Cut.refl (x : Traced ι α) : Cut x x := Or.inl rfl

theorem cut_stop (y : Traced ι α) : Cut stop y := Or.inr ⟨rfl, y.used, rfl⟩

theorem Cut.trans {x y z : Traced ι α} (h : Cut x y) (h' : Cut y z) : Cut x z := by
  rcases h with rfl | ⟨hnone, rest, hused⟩
  · exact h'
  · rcases h' with rfl | ⟨-, rest', hused'⟩
    · exact Or.inr ⟨hnone, rest, hused⟩
    · exact Or.inr ⟨hnone, rest ++ rest', by rw [hused', hused, List.append_assoc]⟩

theorem Cut.bind {x y : Traced ι α} {f g : α → Traced ι β} (h : Cut x y) (hf : ∀ a, Cut (f a) (g a)) :
    Cut (x >>= f) (y >>= g) := by
  rcases h with rfl | ⟨hnone, rest, hused⟩
  · obtain ⟨used, result⟩ := x
    cases result with
    | none => exact Or.inl rfl
    | some a =>
      rcases hf a with heq | ⟨hnone, rest, hused⟩
      · left
        show (⟨used ++ (f a).used, (f a).result⟩ : Traced ι β) = ⟨used ++ (g a).used, (g a).result⟩
        rw [heq]
      · refine Or.inr ⟨hnone, rest, ?_⟩
        show used ++ (g a).used = used ++ (f a).used ++ rest
        rw [hused, List.append_assoc]
  · obtain ⟨used, result⟩ := x
    obtain rfl : result = none := hnone
    obtain ⟨used', result'⟩ := y
    obtain rfl : used' = used ++ rest := hused
    right
    cases result' with
    | none => exact ⟨rfl, rest, rfl⟩
    | some a => exact ⟨rfl, rest ++ (g a).used, List.append_assoc _ _ _⟩

theorem Cut.within {x y : Traced ι α} (h : Cut x y) (hy : Within P y) : Within P x := by
  rcases h with rfl | ⟨-, rest, hused⟩
  · exact hy
  · intro i hi
    apply hy i
    rw [hused]
    exact List.mem_append_left _ hi

theorem Cut.result {x y : Traced ι α} {a : α} (h : Cut x y) (hx : x.result = some a) : y.result = some a := by
  rcases h with rfl | ⟨hnone, -⟩
  · exact hx
  · rw [hnone] at hx
    cases hx

/-- With more fuel the computation only goes on. -/
def Grows (x : Nat → Traced ι α) : Prop := ∀ fuel, Cut (x fuel) (x (fuel + 1))

theorem Grows.le {x : Nat → Traced ι α} (h : Grows x) {fuel fuel' : Nat} (hle : fuel ≤ fuel') :
    Cut (x fuel) (x fuel') := by
  induction hle with
  | refl => exact .refl _
  | step _ ih => exact ih.trans (h _)

theorem grows_const (x : Traced ι α) : Grows fun _ => x := fun _ => .refl x

theorem Grows.bind {x : Nat → Traced ι α} {f : Nat → α → Traced ι β} (hx : Grows x)
    (hf : ∀ a, Grows fun fuel => f fuel a) : Grows fun fuel => x fuel >>= f fuel :=
  fun fuel => (hx fuel).bind fun a => hf a fuel

/-- **Everything a sequence may use**, however much fuel it gets. -/
theorem forall_within_bind {x : Nat → Traced ι α} {f : Nat → α → Traced ι β} (hx : Grows x)
    (hf : ∀ a, Grows fun fuel => f fuel a) :
    (∀ fuel, Within P (x fuel >>= f fuel)) ↔
      (∀ fuel, Within P (x fuel)) ∧
        ∀ fuel a, (x fuel).result = some a → ∀ fuel', Within P (f fuel' a) := by
  constructor
  · intro h
    refine ⟨fun fuel => (within_bind.mp (h fuel)).1, fun fuel a ha fuel' => ?_⟩
    -- enough fuel for both
    have hboth := (within_bind.mp (h (max fuel fuel'))).2 a ((hx.le (Nat.le_max_left _ _)).result ha)
    exact ((hf a).le (Nat.le_max_right _ _)).within hboth
  · rintro ⟨hfirst, hsecond⟩ fuel
    exact within_bind.mpr ⟨hfirst fuel, fun a ha => hsecond fuel a ha fuel⟩

/-! ## The search for a free entry -/

/-- `while (used[i]) i++` in a table of `size` entries: the first free entry from `i` on.  `fuel` is enough if
    `i + fuel` is more than `size`. -/
def firstFree (name : Nat → ι) (size : Nat) (free : Nat → Bool) : Nat → Nat → Traced ι Nat
  | 0, _ => stop
  | fuel + 1, i => do
    use (name i) (i < size)
    if free i then pure i else firstFree name size free fuel (i + 1)

section FirstFree

variable {name : Nat → ι} {size : Nat} {free : Nat → Bool}

/-- **The entries looked at** are all in the table IFF one of them is free. -/
theorem within_firstFree (hname : ∀ i, P (name i) ↔ i < size) {fuel i : Nat} (hfuel : size < i + fuel)
    (hi : i ≤ size) :
    Within P (firstFree name size free fuel i) ↔ ∃ j, i ≤ j ∧ j < size ∧ free j = true := by
  induction fuel generalizing i with
  | zero => omega
  | succ fuel ih =>
    rw [firstFree, within_use_bind, hname]
    constructor
    · rintro ⟨hlt, hrest⟩
      have hnext := hrest hlt
      by_cases hfree : free i = true
      · exact ⟨i, Nat.le_refl i, hlt, hfree⟩
      · rw [if_neg hfree] at hnext
        obtain ⟨j, hj, hlt', hfree'⟩ := (ih (by omega) (by omega)).mp hnext
        exact ⟨j, by omega, hlt', hfree'⟩
    · rintro ⟨j, hj, hlt, hfree⟩
      refine ⟨by omega, fun _ => ?_⟩
      by_cases hfree' : free i = true
      · rw [if_pos hfree']
        exact within_pure i
      · rw [if_neg hfree']
        have hne : i ≠ j := by
          rintro rfl
          exact hfree' hfree
        exact (ih (by omega) (by omega)).mpr ⟨j, by omega, hlt, hfree⟩

/-- What the search returns. -/
theorem firstFree_result {fuel i j : Nat} (h : (firstFree name size free fuel i).result = some j) :
    i ≤ j ∧ j < size ∧ free j = true := by
  induction fuel generalizing i with
  | zero => cases h
  | succ fuel ih =>
    rw [firstFree, result_bind, result_use] at h
    by_cases hlt : i < size
    · rw [if_pos hlt, Option.bind_some] at h
      by_cases hfree : free i = true
      · rw [if_pos hfree] at h
        cases h
        exact ⟨Nat.le_refl _, hlt, hfree⟩
      · rw [if_neg hfree] at h
        obtain ⟨hle, hrest⟩ := ih h
        exact ⟨by omega, hrest⟩
    · rw [if_neg hlt] at h
      cases h

end FirstFree

end Traced

end Nachos
