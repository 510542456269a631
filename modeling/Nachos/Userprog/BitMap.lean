/-
  `userprog/bitmap.cc` — a bitmap, an array of 32-bit words, used as a set of indices.

  The model keeps the words and the masks of the source.  Every access goes through
  `ASSERT(which >= 0 && which < numBits)`; a failed `ASSERT` is `none`.  The constructor gets the words
  as `new` left them and clears the bits below `numBits` one by one, so the unused bits of the last word
  keep what was there.

  `BitMap.marked` is the set that a bitmap stands for, and there is one lemma for each operation that
  says what it does to the set: `Mark` inserts, `Clear` erases, `Test` is membership, `Find` inserts
  the least index that is missing, or returns -1 when none is, and `NumClear` counts the missing ones.
  The loops of `Find` and `NumClear` never fail an `ASSERT`.

  `bitMap_refines_set` puts them together: a bitmap, called any number of times, answers as a set of
  indices would.
-/
import Mathlib.Data.Fin.Embedding
import Mathlib.Data.Finset.Card
import Mathlib.Data.Finset.Image
import Mathlib.Data.Finset.Range
import Mathlib.Data.List.Range
import Nachos.Lib.Calls

namespace Nachos

/-! ## The code -/

/-- `divRoundUp` of `threads/utility.h`; the division of C truncates. -/
def divRoundUp (n s : Int) : Int :=
  n.tdiv s + if n.tmod s > 0 then 1 else 0

/-- The division of a number that is not negative, rounded up. -/
theorem divRoundUp_natCast {s : Nat} (hs : 0 < s) (n : Nat) :
    divRoundUp n s = ((n + (s - 1)) / s : Nat) := by
  have hsplit : n + (s - 1) = s * (n / s) + (n % s + (s - 1)) := by
    have hn := Nat.div_add_mod n s
    omega
  have hrem : n % s < s := Nat.mod_lt _ hs
  unfold divRoundUp
  rw [Int.tdiv_eq_ediv_of_nonneg (Int.natCast_nonneg _),
    Int.tmod_eq_emod_of_nonneg (Int.natCast_nonneg _), ← Int.natCast_ediv, ← Int.natCast_emod, hsplit,
    Nat.mul_add_div hs]
  by_cases hzero : n % s = 0
  · have hnone : (n % s + (s - 1)) / s = 0 := Nat.div_eq_of_lt (by omega)
    rw [if_neg (by omega), hnone]
    rfl
  · have hone : (n % s + (s - 1)) / s = 1 :=
      Nat.div_eq_of_lt_le (by omega) (by omega)
    rw [if_pos (by omega), hone]
    rfl

/-- `BitsInWord`. -/
def bitsInWord : Nat := 32

/-- `class BitMap`.  `numWords` is the length of `map`. -/
structure BitMap where
  numBits : Nat
  map : List (BitVec bitsInWord)
  numWords : (map.length : Int) = divRoundUp numBits bitsInWord

namespace BitMap

/-- `map[i] = f(map[i])`. -/
def modify (b : BitMap) (i : Nat) (f : BitVec bitsInWord → BitVec bitsInWord) : BitMap where
  numBits := b.numBits
  map := b.map.modify i f
  numWords := by
    rw [List.length_modify]
    exact b.numWords

/-- The condition of the `ASSERT`s. -/
def InRange (b : BitMap) (which : Int) : Prop := which ≥ 0 ∧ which < b.numBits

instance (b : BitMap) (which : Int) : Decidable (b.InRange which) :=
  inferInstanceAs (Decidable (_ ∧ _))

/-- `1 << (which % BitsInWord)`. -/
def mask (which : Int) : BitVec bitsInWord := BitVec.ofNat bitsInWord 1 <<< (which.toNat % bitsInWord)

/-- `BitMap::Mark(which)`. -/
def mark (b : BitMap) (which : Int) : Option BitMap :=
  if b.InRange which then some (b.modify (which.toNat / bitsInWord) (· ||| mask which)) else none

/-- `BitMap::Clear(which)`. -/
def clear (b : BitMap) (which : Int) : Option BitMap :=
  if b.InRange which then some (b.modify (which.toNat / bitsInWord) (· &&& ~~~ mask which)) else none

/-- `BitMap::Test(which)`. -/
def test (b : BitMap) (which : Int) : Option Bool :=
  if b.InRange which then
    some (b.map.getD (which.toNat / bitsInWord) 0 &&& mask which != 0)
  else none

/-- The fields as the constructor sets them; `garbage` is what `new unsigned int[numWords]` returned. -/
def uninitialized (nitems : Nat) (garbage : Nat → BitVec bitsInWord) : BitMap where
  numBits := nitems
  map := (List.range (divRoundUp nitems bitsInWord).toNat).map garbage
  numWords := by
    rw [List.length_map, List.length_range]
    refine Int.toNat_of_nonneg ?_
    unfold divRoundUp
    have hdiv : 0 ≤ (nitems : Int).tdiv bitsInWord :=
      Int.tdiv_nonneg (Int.natCast_nonneg _) (Int.natCast_nonneg _)
    split <;> omega

/-- `BitMap::BitMap(nitems)`. -/
def new (nitems : Nat) (garbage : Nat → BitVec bitsInWord) : Option BitMap :=
  (List.range nitems).foldlM (fun b (i : Nat) => b.clear i) (uninitialized nitems garbage)

/-- The loop of `Find`, over the indices that are left. -/
def findIn (b : BitMap) : List Nat → Option (Int × BitMap)
  | [] => some (-1, b)
  | i :: rest =>
    match b.test i with
    | none => none
    | some true => b.findIn rest
    | some false => (b.mark i).map fun b' => ((i : Int), b')

/-- `BitMap::Find()`. -/
def find (b : BitMap) : Option (Int × BitMap) := b.findIn (List.range b.numBits)

/-- `BitMap::NumClear()`. -/
def numClear (b : BitMap) : Option Nat :=
  (List.range b.numBits).foldlM
    (fun count (i : Nat) => (b.test i).map fun set => if !set then count + 1 else count) 0

/-! ## The bits -/

/-- Bit `i`, in its word. -/
def bit (b : BitMap) (i : Nat) : Bool := (b.map.getD (i / bitsInWord) 0).getLsbD (i % bitsInWord)

/-- The set the bitmap stands for. -/
def marked (b : BitMap) : Finset Nat := (Finset.range b.numBits).filter fun i => b.bit i = true

variable {b b' : BitMap} {i j : Nat}

theorem mem_marked : i ∈ b.marked ↔ i < b.numBits ∧ b.bit i = true := by
  simp [marked]

theorem marked_subset : b.marked ⊆ Finset.range b.numBits := Finset.filter_subset _ _

theorem div_lt_of_divRoundUp {n len : Nat} (hlen : (len : Int) = divRoundUp n bitsInWord) (h : i < n) :
    i / bitsInWord < len := by
  unfold divRoundUp at hlen
  rw [Int.tdiv_eq_ediv_of_nonneg (Int.natCast_nonneg _),
    Int.tmod_eq_emod_of_nonneg (Int.natCast_nonneg _)] at hlen
  split at hlen <;> (simp only [bitsInWord] at *; omega)

/-- There is a word for every index. -/
theorem word_lt (h : i < b.numBits) : i / bitsInWord < b.map.length :=
  div_lt_of_divRoundUp b.numWords h

theorem inRange_natCast : b.InRange (i : Int) ↔ i < b.numBits := by
  unfold InRange
  omega

theorem getLsbD_mask (i : Nat) (hj : j < bitsInWord) :
    (mask (i : Int)).getLsbD j = decide (j = i % bitsInWord) := by
  have hi : i % bitsInWord < bitsInWord := Nat.mod_lt _ (by decide)
  simp only [mask, Int.toNat_natCast, BitVec.getLsbD_shiftLeft, BitVec.getLsbD_one, hj, decide_true,
    Bool.true_and]
  by_cases hlt : j < i % bitsInWord
  · simp [hlt, Nat.ne_of_lt hlt]
  · rw [decide_eq_false hlt, Bool.not_false, Bool.true_and]
    have hpos : 0 < bitsInWord := by decide
    simp only [hpos, decide_true, Bool.true_and, decide_eq_decide]
    omega

/-- Changing a word changes the bits of that word. -/
theorem bit_modify (f : BitVec bitsInWord → BitVec bitsInWord) (hi : i < b.numBits) :
    (b.modify (i / bitsInWord) f).bit j =
      if j / bitsInWord = i / bitsInWord then
        (f (b.map.getD (i / bitsInWord) 0)).getLsbD (j % bitsInWord)
      else b.bit j := by
  have hword := word_lt hi
  unfold bit modify
  simp only [List.getD_eq_getElem?_getD, List.getElem?_modify]
  by_cases hj : j / bitsInWord = i / bitsInWord
  · rw [hj, List.getElem?_eq_getElem hword]
    simp
  · simp [hj, Ne.symm hj]

/-- Two indices are the same when their words and their positions are. -/
theorem eq_iff_div_mod : j = i ↔ j / bitsInWord = i / bitsInWord ∧ j % bitsInWord = i % bitsInWord := by
  simp only [bitsInWord]
  omega

/-! ## What the operations do -/

/-- Testing with a mask reads the bit. -/
theorem and_mask_eq_zero (w : BitVec bitsInWord) (i : Nat) :
    w &&& mask (i : Int) = 0 ↔ w.getLsbD (i % bitsInWord) = false := by
  have hmod : i % bitsInWord < bitsInWord := Nat.mod_lt _ (by decide)
  constructor
  · intro h
    have hbit : (w &&& mask (i : Int)).getLsbD (i % bitsInWord) = false := by
      rw [h]
      exact BitVec.getLsbD_zero
    rw [BitVec.getLsbD_and, getLsbD_mask i hmod, decide_eq_true rfl, Bool.and_true] at hbit
    exact hbit
  · intro h
    refine BitVec.eq_of_getLsbD_eq fun j hj => ?_
    rw [BitVec.getLsbD_and, getLsbD_mask i hj]
    show _ = (BitVec.ofNat bitsInWord 0).getLsbD j
    rw [BitVec.getLsbD_zero]
    by_cases hji : j = i % bitsInWord
    · rw [hji, h, Bool.false_and]
    · rw [decide_eq_false hji, Bool.and_false]

theorem test_eq (h : i < b.numBits) : b.test i = some (b.bit i) := by
  unfold test bit
  rw [if_pos (inRange_natCast.mpr h), Int.toNat_natCast]
  refine congrArg some ?_
  have hzero := and_mask_eq_zero (b.map.getD (i / bitsInWord) 0) i
  cases hbit : (b.map.getD (i / bitsInWord) 0).getLsbD (i % bitsInWord) with
  | false => rw [hzero.mpr hbit]; rfl
  | true =>
    refine bne_iff_ne.mpr fun h0 => ?_
    rw [hzero.mp h0] at hbit
    nomatch hbit

/-- `Mark` adds its index. -/
theorem mark_spec (h : i < b.numBits) :
    ∃ b', b.mark i = some b' ∧ b'.numBits = b.numBits ∧ b'.marked = insert i b.marked := by
  refine ⟨_, if_pos (inRange_natCast.mpr h), rfl, ?_⟩
  ext j
  rw [Finset.mem_insert, mem_marked, mem_marked, Int.toNat_natCast, bit_modify _ h]
  show j < b.numBits ∧ _ ↔ _
  have hmod : j % bitsInWord < bitsInWord := Nat.mod_lt _ (by decide)
  rw [BitVec.getLsbD_or, getLsbD_mask i hmod]
  by_cases hji : j = i
  · subst hji
    simp [h]
  · by_cases hword : j / bitsInWord = i / bitsInWord
    · have hpos : j % bitsInWord ≠ i % bitsInWord := fun hpos => hji (eq_iff_div_mod.mpr ⟨hword, hpos⟩)
      rw [if_pos hword, decide_eq_false hpos, Bool.or_false, ← hword]
      simp only [hji, false_or]
      exact Iff.rfl
    · rw [if_neg hword]
      simp only [hji, false_or]

/-- `Clear` takes its index out. -/
theorem clear_spec (h : i < b.numBits) :
    ∃ b', b.clear i = some b' ∧ b'.numBits = b.numBits ∧ b'.marked = b.marked.erase i := by
  refine ⟨_, if_pos (inRange_natCast.mpr h), rfl, ?_⟩
  ext j
  rw [Finset.mem_erase, mem_marked, mem_marked, Int.toNat_natCast, bit_modify _ h]
  show j < b.numBits ∧ _ ↔ _
  have hmod : j % bitsInWord < bitsInWord := Nat.mod_lt _ (by decide)
  rw [BitVec.getLsbD_and, BitVec.getLsbD_not, getLsbD_mask i hmod]
  by_cases hji : j = i
  · subst hji
    simp
  · by_cases hword : j / bitsInWord = i / bitsInWord
    · have hpos : j % bitsInWord ≠ i % bitsInWord := fun hpos => hji (eq_iff_div_mod.mpr ⟨hword, hpos⟩)
      rw [if_pos hword, decide_eq_false hpos, Bool.not_false, decide_eq_true hmod, Bool.and_true,
        Bool.and_true, ← hword]
      simp only [ne_eq, hji, not_false_eq_true, true_and]
      exact Iff.rfl
    · rw [if_neg hword]
      simp only [ne_eq, hji, not_false_eq_true, true_and]

/-- The loop of `Find` stops at the first index that is clear. -/
theorem findIn_spec : ∀ is : List Nat, (∀ i ∈ is, i < b.numBits) →
    (b.findIn is = some (-1, b) ∧ ∀ i ∈ is, i ∈ b.marked) ∨
    ∃ pre i post b', is = pre ++ i :: post ∧ (∀ j ∈ pre, j ∈ b.marked) ∧ i ∉ b.marked ∧
      b.findIn is = some ((i : Int), b') ∧ b'.numBits = b.numBits ∧ b'.marked = insert i b.marked := by
  intro is hlt
  induction is with
  | nil => exact Or.inl ⟨rfl, fun _ hi => absurd hi List.not_mem_nil⟩
  | cons i rest ih =>
    have hi : i < b.numBits := hlt i (List.mem_cons_self ..)
    unfold findIn
    rw [test_eq hi]
    cases hbit : b.bit i with
    | true =>
      have hmem : i ∈ b.marked := mem_marked.mpr ⟨hi, hbit⟩
      rcases ih fun j hj => hlt j (List.mem_cons_of_mem _ hj) with
        ⟨hfull, hall⟩ | ⟨pre, k, post, b', rfl, hpre, hk, hfind, hbits, hmark⟩
      · exact Or.inl ⟨hfull, List.forall_mem_cons.mpr ⟨hmem, hall⟩⟩
      · exact Or.inr ⟨i :: pre, k, post, b', rfl, List.forall_mem_cons.mpr ⟨hmem, hpre⟩, hk, hfind,
          hbits, hmark⟩
    | false =>
      obtain ⟨b', hmark, hbits, hset⟩ := mark_spec hi
      refine Or.inr ⟨[], i, rest, b', rfl, fun _ hj => absurd hj List.not_mem_nil, ?_, ?_, hbits, hset⟩
      · rw [mem_marked, hbit]
        exact fun h => nomatch h.2
      · simp only [hmark]
        rfl

/-- **`Find`** adds the least missing index and returns it; when none is missing it returns -1 and
    changes nothing. -/
theorem find_spec (b : BitMap) :
    (b.find = some (-1, b) ∧ b.marked = Finset.range b.numBits) ∨
    ∃ (i : Nat) (b' : BitMap), b.find = some ((i : Int), b') ∧ i < b.numBits ∧ i ∉ b.marked ∧
      (∀ j < i, j ∈ b.marked) ∧ b'.numBits = b.numBits ∧ b'.marked = insert i b.marked := by
  rcases findIn_spec (b := b) (List.range b.numBits) fun i hi => List.mem_range.mp hi with
    ⟨hfull, hall⟩ | ⟨pre, i, post, b', hsplit, hpre, hi, hfind, hbits, hmark⟩
  · refine Or.inl ⟨hfull, Finset.Subset.antisymm marked_subset fun i hi => ?_⟩
    exact hall i (List.mem_range.mpr (Finset.mem_range.mp hi))
  · have hmem : i ∈ List.range b.numBits := by
      rw [hsplit]
      exact List.mem_append.mpr (Or.inr (List.mem_cons_self ..))
    refine Or.inr ⟨i, b', hfind, List.mem_range.mp hmem, hi, fun j hj => hpre j ?_, hbits, hmark⟩
    -- the indices before `i` in `range` are those below it
    have hlen : pre.length = i := by
      have hget : (List.range b.numBits)[pre.length]? = some i := by
        rw [hsplit]
        simp
      obtain ⟨hlt, heq⟩ := List.getElem?_eq_some_iff.mp hget
      rw [List.getElem_range] at heq
      exact heq
    have hj' : (List.range b.numBits)[j]? = some j :=
      List.getElem?_range (Nat.lt_trans hj (List.mem_range.mp hmem))
    rw [hsplit, List.getElem?_append_left (by omega)] at hj'
    exact List.mem_of_getElem? hj'

/-- The loop of `NumClear`. -/
theorem count_spec : ∀ (is : List Nat) (count : Nat), (∀ i ∈ is, i < b.numBits) →
    is.foldlM (fun count (i : Nat) => (b.test i).map fun set => if !set then count + 1 else count)
      count
      = some (count + is.countP fun i => !b.bit i) := by
  intro is count hlt
  induction is generalizing count with
  | nil => rfl
  | cons i rest ih =>
    have hi : i < b.numBits := hlt i (List.mem_cons_self ..)
    rw [List.foldlM_cons, test_eq hi, Option.map_some, Option.bind_eq_bind, Option.bind_some,
      ih _ fun j hj => hlt j (List.mem_cons_of_mem _ hj), List.countP_cons]
    cases b.bit i with
    | true => rfl
    | false =>
      simp only [Bool.not_false, if_true]
      exact congrArg some (by omega)

/-- **`NumClear`** is the number of missing indices. -/
theorem numClear_spec (b : BitMap) : b.numClear = some (b.numBits - b.marked.card) := by
  have hsum := List.length_eq_countP_add_countP (fun i => b.bit i) (l := List.range b.numBits)
  have hmarked : (List.range b.numBits).countP (fun i => b.bit i) = b.marked.card := by
    rw [marked, Finset.card, Finset.filter_val, Finset.range_val, ← Multiset.countP_eq_card_filter,
      Multiset.range, Multiset.coe_countP]
    simp only [Bool.decide_eq_true]
  have hcount : (List.range b.numBits).countP (fun i => !b.bit i) = b.numBits - b.marked.card := by
    simp only [List.length_range, Bool.not_eq_true, Bool.decide_eq_false] at hsum
    omega
  unfold numClear
  rw [count_spec _ 0 fun i hi => List.mem_range.mp hi, hcount, Nat.zero_add]

/-- Clearing one index after the other. -/
theorem clearAll_spec : ∀ (is : List Nat) (b : BitMap), (∀ i ∈ is, i < b.numBits) →
    ∃ b', is.foldlM (fun b (i : Nat) => b.clear i) b = some b' ∧ b'.numBits = b.numBits ∧
      ∀ j, j ∈ b'.marked ↔ j ∈ b.marked ∧ j ∉ is := by
  intro is b hlt
  induction is generalizing b with
  | nil => exact ⟨b, rfl, rfl, fun j => by simp⟩
  | cons i rest ih =>
    obtain ⟨b₁, hclear, hbits, hset⟩ := clear_spec (hlt i (List.mem_cons_self ..))
    obtain ⟨b', hrest, hbits', hset'⟩ := ih b₁ fun j hj => by
      rw [hbits]
      exact hlt j (List.mem_cons_of_mem _ hj)
    refine ⟨b', ?_, hbits'.trans hbits, fun j => ?_⟩
    · rw [List.foldlM_cons, hclear]
      exact hrest
    · rw [hset' j, hset, Finset.mem_erase, List.mem_cons, not_or]
      constructor
      · rintro ⟨⟨hne, hmem⟩, hrest⟩
        exact ⟨hmem, hne, hrest⟩
      · rintro ⟨hmem, hne, hrest⟩
        exact ⟨⟨hne, hmem⟩, hrest⟩

/-- **The constructor** makes the empty set, whatever was in the words. -/
theorem new_spec (nitems : Nat) (garbage : Nat → BitVec bitsInWord) :
    ∃ b, BitMap.new nitems garbage = some b ∧ b.numBits = nitems ∧ b.marked = ∅ := by
  obtain ⟨b, hnew, hbits, hset⟩ := clearAll_spec (List.range nitems) (uninitialized nitems garbage)
    fun i hi => List.mem_range.mp hi
  refine ⟨b, hnew, hbits, Finset.eq_empty_of_forall_notMem fun j hj => ?_⟩
  have hlt : j < nitems := by
    have hmem := (mem_marked.mp hj).1
    rw [hbits] at hmem
    exact hmem
  exact ((hset j).mp hj).2 (List.mem_range.mpr hlt)

/-! ## A set of indices -/

/-- The calls of a bitmap with `numBits` bits. -/
inductive Call (numBits : Nat) where
  | mark (which : Fin numBits)
  | clear (which : Fin numBits)
  | test (which : Fin numBits)
  | find
  | numClear

/-- What they return. -/
inductive Reply where
  | done
  | bool (set : Bool)
  | index (found : Int)
  | count (number : Nat)
  deriving DecidableEq

/-- One call, on the words and masks. -/
def call {numBits : Nat} (b : BitMap) : Call numBits → Option (Reply × BitMap)
  | .mark which => (b.mark which.val).map fun b' => (.done, b')
  | .clear which => (b.clear which.val).map fun b' => (.done, b')
  | .test which => (b.test which.val).map fun set => (.bool set, b)
  | .find => b.find.map fun r => (.index r.1, r.2)
  | .numClear => b.numClear.map fun number => (.count number, b)

/-- **A set of indices below `numBits`**: what each call returns, and what the set is then. -/
inductive SetCall {numBits : Nat} : Finset (Fin numBits) → Call numBits → Reply → Finset (Fin numBits) → Prop where
  | mark (s : Finset (Fin numBits)) (which : Fin numBits) : SetCall s (.mark which) .done (insert which s)
  | clear (s : Finset (Fin numBits)) (which : Fin numBits) : SetCall s (.clear which) .done (s.erase which)
  | test (s : Finset (Fin numBits)) (which : Fin numBits) : SetCall s (.test which) (.bool (decide (which ∈ s))) s
  | find {s : Finset (Fin numBits)} {least : Fin numBits} (hnot : least ∉ s) (hleast : ∀ j < least, j ∈ s) :
      SetCall s .find (.index least.val) (insert least s)
  | findFull {s : Finset (Fin numBits)} (hfull : ∀ j, j ∈ s) : SetCall s .find (.index (-1)) s
  | numClear (s : Finset (Fin numBits)) : SetCall s .numClear (.count (numBits - s.card)) s

/-- **The bitmap stands for the set.** -/
structure Stands {numBits : Nat} (b : BitMap) (s : Finset (Fin numBits)) : Prop where
  numBits : b.numBits = numBits
  marked : b.marked = s.map Fin.valEmbedding

namespace Stands

variable {numBits : Nat} {s : Finset (Fin numBits)}

theorem mem_iff (h : b.Stands s) (which : Fin numBits) : which.val ∈ b.marked ↔ which ∈ s := by
  rw [h.marked]
  exact Finset.mem_map' Fin.valEmbedding

theorem lt (h : b.Stands s) (which : Fin numBits) : which.val < b.numBits := by
  rw [h.numBits]
  exact which.isLt

theorem bit (h : b.Stands s) (which : Fin numBits) : b.bit which.val = decide (which ∈ s) := by
  rw [Bool.eq_iff_iff, decide_eq_true_iff, ← h.mem_iff, mem_marked]
  exact ⟨fun hbit => ⟨h.lt which, hbit⟩, fun hmem => hmem.2⟩

theorem insert (h : b.Stands s) {which : Fin numBits} (hbits : b'.numBits = b.numBits)
    (hset : b'.marked = insert which.val b.marked) : b'.Stands (insert which s) := by
  refine ⟨hbits.trans h.numBits, ?_⟩
  rw [hset, h.marked, Finset.map_insert]
  rfl

theorem erase (h : b.Stands s) {which : Fin numBits} (hbits : b'.numBits = b.numBits)
    (hset : b'.marked = b.marked.erase which.val) : b'.Stands (s.erase which) := by
  refine ⟨hbits.trans h.numBits, ?_⟩
  rw [hset, h.marked, Finset.map_erase]
  rfl

end Stands

/-- **One call**: the bitmap returns, and replies what a set would. -/
theorem call_refines {numBits : Nat} (b : BitMap) (s : Finset (Fin numBits)) (op : Call numBits) (h : b.Stands s) :
    ∃ r b' s', b.call op = some (r, b') ∧ SetCall s op r s' ∧ b'.Stands s' := by
  cases op with
  | mark which =>
    obtain ⟨b', hmark, hbits, hset⟩ := mark_spec (h.lt which)
    exact ⟨_, b', _, by rw [call, hmark]; rfl, .mark s which, h.insert hbits hset⟩
  | clear which =>
    obtain ⟨b', hclear, hbits, hset⟩ := clear_spec (h.lt which)
    exact ⟨_, b', _, by rw [call, hclear]; rfl, .clear s which, h.erase hbits hset⟩
  | test which =>
    refine ⟨_, b, s, ?_, .test s which, h⟩
    rw [call, test_eq (h.lt which), h.bit]
    rfl
  | find =>
    rcases find_spec b with ⟨hfind, hfull⟩ | ⟨i, b', hfind, hlt, hnot, hleast, hbits, hset⟩
    · refine ⟨_, b, s, by rw [call, hfind]; rfl, .findFull ?_, h⟩
      intro j
      rw [← h.mem_iff, hfull]
      exact Finset.mem_range.mpr (h.lt j)
    · rw [h.numBits] at hlt
      refine ⟨_, b', insert ⟨i, hlt⟩ s, by rw [call, hfind]; rfl, .find ?_ ?_, h.insert hbits hset⟩
      · rw [← h.mem_iff]
        exact hnot
      · intro j hj
        rw [← h.mem_iff]
        exact hleast j.val hj
  | numClear =>
    refine ⟨_, b, s, ?_, .numClear s, h⟩
    rw [call, numClear_spec, h.numBits, h.marked, Finset.card_map]
    rfl

end BitMap

/-- **A BITMAP IS A SET OF INDICES**: made out of any words it is the empty set, and every list of calls returns and gets the
    replies of the set, which the bits then are. -/
theorem bitMap_refines_set (numBits : Nat) (garbage : Nat → BitVec bitsInWord) (ops : List (BitMap.Call numBits)) :
    ∃ b b' replies s, BitMap.new numBits garbage = some b ∧ (∀ which : Fin numBits, b.test which.val = some false) ∧
      Calls.runs BitMap.call b ops = some (replies, b') ∧ Calls.SpecRuns BitMap.SetCall ∅ ops replies s ∧
      ∀ which : Fin numBits, b'.test which.val = some (decide (which ∈ s)) := by
  obtain ⟨b, hnew, hbits, hempty⟩ := BitMap.new_spec numBits garbage
  have hstands : b.Stands (∅ : Finset (Fin numBits)) := ⟨hbits, hempty.trans (Finset.map_empty _).symm⟩
  obtain ⟨replies, b', s, hruns, hspec, hstands'⟩ := Calls.runs_refines BitMap.call_refines ops hstands
  refine ⟨b, b', replies, s, hnew, ?_, hruns, hspec, ?_⟩
  · intro which
    rw [BitMap.test_eq (hstands.lt which), hstands.bit]
    rfl
  · intro which
    rw [BitMap.test_eq (hstands'.lt which), hstands'.bit]

end Nachos
