/-
  PARTIAL MAPS WITH A BOUNDED NUMBER OF KEYS, and the tables that represent them.

  1. **Map** (`BoundedMap`) — a finite map that carries the bound.  A key can be inserted as long as there is room.

  2. **Table** (`BoundedMap.Represents`) — as many slots as the map may have keys.  A slot is empty or has a key and a
     value, and no key is in two slots.  There is room in the map exactly when a slot is empty (`Represents.room_iff`).
     To fill an empty slot is to insert a new key (`Represents.fill`), and to clear a slot is to erase its key
     (`Represents.clear`).
-/
import Mathlib.Data.Finmap
import Mathlib.Data.Finset.Card
import Mathlib.Data.Finset.Range
import Nachos.Lib.Pool

namespace Nachos

/-- **A partial map with at most `capacity` keys.** -/
structure BoundedMap (κ ν : Type) (capacity : Nat) where
  map : Finmap fun _ : κ => ν
  card_le : map.keys.card ≤ capacity

namespace BoundedMap

variable {κ ν : Type} {capacity : Nat}

/-- No keys. -/
def empty : BoundedMap κ ν capacity := ⟨∅, Nat.zero_le capacity⟩

/-- The number of keys. -/
def size (m : BoundedMap κ ν capacity) : Nat := m.map.keys.card

variable [DecidableEq κ]

/-- The value of a key that has one. -/
def lookup (m : BoundedMap κ ν capacity) (k : κ) : Option ν := m.map.lookup k

/-- One more key, or a new value for an old one. -/
def insert (m : BoundedMap κ ν capacity) (k : κ) (v : ν) (hroom : m.size < capacity) : BoundedMap κ ν capacity where
  map := m.map.insert k v
  card_le := by
    have hkeys : (m.map.insert k v).keys = Insert.insert k m.map.keys := by
      ext a
      rw [Finmap.mem_keys, Finmap.mem_insert, Finset.mem_insert, Finmap.mem_keys]
    rw [hkeys]
    exact (Finset.card_insert_le k m.map.keys).trans hroom

/-- One key less. -/
def erase (m : BoundedMap κ ν capacity) (k : κ) : BoundedMap κ ν capacity where
  map := m.map.erase k
  card_le := by
    rw [Finmap.keys_erase]
    exact Finset.card_erase_le.trans m.card_le

variable {m : BoundedMap κ ν capacity} {k k' : κ} {v : ν}

@[simp] theorem lookup_empty (k : κ) : (empty : BoundedMap κ ν capacity).lookup k = none := Finmap.lookup_empty k

@[simp] theorem lookup_insert (hroom : m.size < capacity) : (m.insert k v hroom).lookup k = some v :=
  Finmap.lookup_insert m.map

theorem lookup_insert_of_ne (hroom : m.size < capacity) (hne : k' ≠ k) : (m.insert k v hroom).lookup k' = m.lookup k' :=
  Finmap.lookup_insert_of_ne m.map hne

@[simp] theorem lookup_erase : (m.erase k).lookup k = none := Finmap.lookup_erase k m.map

theorem lookup_erase_of_ne (hne : k' ≠ k) : (m.erase k).lookup k' = m.lookup k' := Finmap.lookup_erase_ne hne

theorem mem_keys_iff : k ∈ m.map.keys ↔ ∃ v, m.lookup k = some v := by
  rw [Finmap.mem_keys]
  exact Finmap.mem_iff

/-! ## Tables -/

/-- **The table represents the map.** -/
structure Represents (slot : Nat → Option (κ × ν)) (m : BoundedMap κ ν capacity) : Prop where
  lookup_iff : ∀ k v, m.lookup k = some v ↔ ∃ i < capacity, slot i = some (k, v)
  distinct : ∀ i < capacity, ∀ j < capacity, ∀ k v w, slot i = some (k, v) → slot j = some (k, w) → i = j

namespace Represents

variable {slot : Nat → Option (κ × ν)} {i : Nat}

/-- All slots empty, no keys. -/
theorem of_empty (h : ∀ i < capacity, slot i = none) : Represents slot (empty : BoundedMap κ ν capacity) where
  lookup_iff := by
    intro k v
    rw [lookup_empty]
    constructor
    · intro hnone
      cases hnone
    · rintro ⟨i, hi, hslot⟩
      rw [h i hi] at hslot
      cases hslot
  distinct := by
    intro i hi _ _ k v _ hslot
    rw [h i hi] at hslot
    cases hslot

theorem lookup_of_slot (h : Represents slot m) (hi : i < capacity) (hslot : slot i = some (k, v)) :
    m.lookup k = some v := (h.lookup_iff k v).mpr ⟨i, hi, hslot⟩

/-- A key without a value is in no slot. -/
theorem lookup_eq_none_iff (h : Represents slot m) :
    m.lookup k = none ↔ ∀ i < capacity, ∀ v, slot i ≠ some (k, v) := by
  rw [Option.eq_none_iff_forall_ne_some]
  constructor
  · intro hnone i hi v hslot
    exact hnone v (h.lookup_of_slot hi hslot)
  · intro hslots v hlookup
    obtain ⟨i, hi, hslot⟩ := (h.lookup_iff k v).mp hlookup
    exact hslots i hi v hslot

/-- **There are as many keys as slots in use**: each key is in a slot, and different slots have different keys. -/
theorem size_eq (h : Represents slot m) : m.size = ((Finset.range capacity).filter fun i => (slot i).isSome).card := by
  have himage : m.map.keys.image some =
      ((Finset.range capacity).filter fun i => (slot i).isSome).image fun i => (slot i).map Prod.fst := by
    ext o
    simp only [Finset.mem_image, Finset.mem_filter, Finset.mem_range]
    constructor
    · rintro ⟨k, hk, rfl⟩
      obtain ⟨v, hlookup⟩ := mem_keys_iff.mp hk
      obtain ⟨i, hi, hslot⟩ := (h.lookup_iff k v).mp hlookup
      refine ⟨i, ⟨hi, ?_⟩, ?_⟩
      · rw [hslot]
        rfl
      · rw [hslot]
        rfl
    · rintro ⟨i, ⟨hi, hused⟩, rfl⟩
      obtain ⟨⟨k, v⟩, hslot⟩ := Option.isSome_iff_exists.mp hused
      refine ⟨k, mem_keys_iff.mpr ⟨v, h.lookup_of_slot hi hslot⟩, ?_⟩
      rw [hslot]
      rfl
  have hinj : Set.InjOn (fun i => (slot i).map Prod.fst)
      ((Finset.range capacity).filter fun i => (slot i).isSome) := by
    intro i hi j hj hsame
    obtain ⟨hi, hused⟩ := Finset.mem_filter.mp hi
    obtain ⟨hj, -⟩ := Finset.mem_filter.mp hj
    obtain ⟨⟨k, v⟩, hslot⟩ := Option.isSome_iff_exists.mp hused
    simp only [hslot, Option.map_some] at hsame
    obtain ⟨⟨k', w⟩, hslot', rfl⟩ := Option.map_eq_some_iff.mp hsame.symm
    exact h.distinct i (Finset.mem_range.mp hi) j (Finset.mem_range.mp hj) k' v w hslot hslot'
  rw [size, ← Finset.card_image_of_injective _ (Option.some_injective κ), himage, Finset.card_image_of_injOn hinj]

/-- **Room in the map is an empty slot.** -/
theorem room_iff (h : Represents slot m) : m.size < capacity ↔ ∃ i < capacity, slot i = none := by
  have hle : ((Finset.range capacity).filter fun i => (slot i).isSome).card ≤ (Finset.range capacity).card :=
    Finset.card_filter_le _ _
  rw [Finset.card_range] at hle
  have hfull : m.size = capacity ↔ ∀ i < capacity, (slot i).isSome = true := by
    have hcard := Finset.card_filter_eq_iff (s := Finset.range capacity) (p := fun i => (slot i).isSome = true)
    rw [Finset.card_range] at hcard
    rw [h.size_eq, hcard]
    simp only [Finset.mem_range]
  constructor
  · intro hlt
    by_contra hnone
    have hall : m.size = capacity := by
      rw [hfull]
      intro i hi
      rw [Option.isSome_iff_ne_none]
      intro hempty
      exact hnone ⟨i, hi, hempty⟩
    omega
  · rintro ⟨i, hi, hempty⟩
    refine Nat.lt_of_le_of_ne (h.size_eq ▸ hle) ?_
    intro hall
    have hused := hfull.mp hall i hi
    rw [hempty] at hused
    cases hused

/-- **To fill an empty slot** with a new key is to insert it. -/
theorem fill (h : Represents slot m) (hi : i < capacity) (hempty : slot i = none) (habsent : m.lookup k = none)
    (hroom : m.size < capacity) (v : ν) : Represents (Function.update slot i (some (k, v))) (m.insert k v hroom) := by
  have hnew := h.lookup_eq_none_iff.mp habsent
  constructor
  · intro k' w
    by_cases hk : k' = k
    · -- the new key is in slot `i` only
      subst hk
      rw [lookup_insert]
      constructor
      · intro hw
        obtain rfl := Option.some.inj hw
        exact ⟨i, hi, Function.update_self ..⟩
      · rintro ⟨j, hj, hslot⟩
        rcases Pool.update_eq_some hslot with ⟨-, hpair⟩ | ⟨-, hold⟩
        · obtain ⟨-, rfl⟩ := Prod.mk.inj (Option.some.inj hpair)
          rfl
        · exact absurd hold (hnew j hj w)
    · rw [lookup_insert_of_ne hroom hk, h.lookup_iff, Pool.exists_update_iff]
      · rw [hempty]
        intro hpair
        cases hpair
      · intro hpair
        exact hk (Prod.mk.inj (Option.some.inj hpair)).1.symm
  · intro j hj j' hj' k' w w' hslot hslot'
    rcases Pool.update_eq_some hslot with ⟨rfl, hpair⟩ | ⟨-, hold⟩
    · obtain ⟨rfl, -⟩ := Prod.mk.inj (Option.some.inj hpair)
      rcases Pool.update_eq_some hslot' with ⟨rfl, -⟩ | ⟨-, hold'⟩
      · rfl
      · exact absurd hold' (hnew j' hj' w')
    · rcases Pool.update_eq_some hslot' with ⟨-, hpair⟩ | ⟨-, hold'⟩
      · obtain ⟨rfl, -⟩ := Prod.mk.inj (Option.some.inj hpair)
        exact absurd hold (hnew j hj w)
      · exact h.distinct j hj j' hj' k' w w' hold hold'

/-- **To clear a slot** is to erase its key. -/
theorem clear (h : Represents slot m) (hi : i < capacity) (hslot : slot i = some (k, v)) :
    Represents (Function.update slot i none) (m.erase k) := by
  constructor
  · intro k' w
    by_cases hk : k' = k
    · -- the key was in slot `i` only
      subst hk
      rw [lookup_erase]
      constructor
      · intro hw
        cases hw
      · rintro ⟨j, hj, hslot'⟩
        rcases Pool.update_eq_some hslot' with ⟨-, hnone⟩ | ⟨hne, hold⟩
        · cases hnone
        · exact absurd (h.distinct j hj i hi k' w v hold hslot) hne
    · rw [lookup_erase_of_ne hk, h.lookup_iff, Pool.exists_update_iff]
      · rw [hslot]
        intro hpair
        exact hk (Prod.mk.inj (Option.some.inj hpair)).1.symm
      · intro hpair
        cases hpair
  · intro j hj j' hj' k' w w' hslot₁ hslot₂
    rcases Pool.update_eq_some hslot₁ with ⟨-, hnone⟩ | ⟨-, hold₁⟩
    · cases hnone
    · rcases Pool.update_eq_some hslot₂ with ⟨-, hnone⟩ | ⟨-, hold₂⟩
      · cases hnone
      · exact h.distinct j hj j' hj' k' w w' hold₁ hold₂

end Represents

end BoundedMap

end Nachos
