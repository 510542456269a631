/-
  A pool of resources that are handed out to owners and given back.

  Each owner holds a list of resources; the pool keeps a mark on every resource that is out.  The
  books are in order (`Pool.Ok`) when no resource is held twice, by two owners or by one, and exactly
  the resources that are held are marked.  Two actions: `grant` hands unmarked resources, no two of
  them the same, to a new owner and marks them; `revoke` takes an owner's resources back and unmarks
  them.  The books stay in order along every run (`Pool.Ok.of_reach`).

  Owners may also sit in numbered SLOTS, some of which are empty: then a grant fills a slot, and a revoke
  empties one (`Ok.fill`, `Ok.empty`).  The order of the owners does not matter.

  Where the resources are numbers and the least free ones are handed out, in order (FIRST FIT), what comes
  after an initial segment is the next segment (`firstFit_eq_range'`).
-/
import Mathlib.Data.List.Nodup
import Mathlib.Data.List.Perm.Basic
import Mathlib.Data.Set.Basic
import Nachos.Lib.Lts

namespace Nachos

/-- Which resources are marked, and what the owners hold. -/
structure Pool (α : Type) where
  used : Set α
  held : List (List α)

namespace Pool

variable {α : Type}

/-- A new owner. -/
def grant (p : Pool α) (xs : List α) : Pool α where
  used := p.used ∪ {a | a ∈ xs}
  held := p.held ++ [xs]

/-- Owner `i`, who holds `xs`, gives everything back. -/
def revoke (p : Pool α) (i : Nat) (xs : List α) : Pool α where
  used := p.used \ {a | a ∈ xs}
  held := p.held.eraseIdx i

/-- The books are in order. -/
structure Ok (p : Pool α) : Prop where
  nodup : p.held.flatten.Nodup
  used : ∀ a, a ∈ p.used ↔ a ∈ p.held.flatten

/-- What can be done with a pool. -/
inductive Act (α : Type) where
  | grant (xs : List α)
  | revoke (i : Nat)

/-- The steps of a pool. -/
inductive Step (p : Pool α) : Act α → Pool α → Prop where
  | grant {xs : List α} (hnodup : xs.Nodup) (hfree : ∀ a ∈ xs, a ∉ p.used) :
      Step p (.grant xs) (p.grant xs)
  | revoke {i : Nat} {xs : List α} (hi : p.held[i]? = some xs) : Step p (.revoke i) (p.revoke i xs)

/-- Pools start with everything at home. -/
def system (α : Type) : Lts (Pool α) (Act α) where
  init p := p.used = ∅ ∧ p.held = []
  step := Step

variable {p : Pool α} {xs : List α} {i : Nat}

theorem Ok.grant (h : p.Ok) (hnodup : xs.Nodup) (hfree : ∀ a ∈ xs, a ∉ p.used) : (p.grant xs).Ok := by
  have hflat : (p.grant xs).held.flatten = p.held.flatten ++ xs := by
    simp [Pool.grant]
  refine ⟨?_, fun a => ?_⟩
  · rw [hflat]
    refine h.nodup.append hnodup fun a hold hnew => ?_
    exact hfree a hnew ((h.used a).mpr hold)
  · rw [hflat, List.mem_append, ← h.used a]
    exact Iff.rfl

/-- What the owners hold, owner `i` put first. -/
theorem perm_eraseIdx (hi : p.held[i]? = some xs) :
    p.held.flatten.Perm (xs ++ (p.held.eraseIdx i).flatten) := by
  obtain ⟨hlt, rfl⟩ := List.getElem?_eq_some_iff.mp hi
  rw [← List.flatten_cons]
  exact (List.getElem_cons_eraseIdx_perm hlt).symm.flatten

theorem Ok.revoke (h : p.Ok) (hi : p.held[i]? = some xs) : (p.revoke i xs).Ok := by
  have hperm := perm_eraseIdx hi
  have hnodup := List.nodup_append.mp (hperm.nodup_iff.mp h.nodup)
  refine ⟨hnodup.2.1, fun a => ?_⟩
  show a ∈ p.used ∧ a ∉ xs ↔ a ∈ (p.held.eraseIdx i).flatten
  rw [h.used a, hperm.mem_iff, List.mem_append]
  constructor
  · rintro ⟨hin | hrest, hout⟩
    · exact absurd hin hout
    · exact hrest
  · intro hrest
    exact ⟨Or.inr hrest, fun hin => hnodup.2.2 a hin a hrest rfl⟩

/-- **The books are in order in every run.** -/
theorem Ok.of_reach (h : (system α).Reach p) : p.Ok := by
  refine h.invariant (I := Pool.Ok) ?_ ?_
  · rintro p ⟨hused, hheld⟩
    refine ⟨?_, fun a => ?_⟩
    · rw [hheld]
      exact List.nodup_nil
    · rw [hused, hheld]
      simp
  · intro p a p' _ hok hs
    cases hs with
    | grant hnodup hfree => exact hok.grant hnodup hfree
    | revoke hi => exact hok.revoke hi

/-! ## Owners in slots -/

/-- The order of the owners does not matter. -/
theorem Ok.of_perm {p' : Pool α} (h : p.Ok) (hused : p'.used = p.used) (hperm : p'.held.Perm p.held) :
    p'.Ok := by
  have hflat : p'.held.flatten.Perm p.held.flatten := hperm.flatten
  refine ⟨hflat.nodup_iff.mpr h.nodup, fun a => ?_⟩
  rw [hused, h.used a, hflat.mem_iff]

/-- What the owners in the first `n` slots hold. -/
def slots (n : Nat) (own : Nat → Option (List α)) : List (List α) := (List.range n).filterMap own

theorem mem_slots {n : Nat} {own : Nat → Option (List α)} :
    xs ∈ slots n own ↔ ∃ i < n, own i = some xs := by
  simp only [slots, List.mem_filterMap, List.mem_range]

/-- Who is in a slot after one of them changed. -/
theorem update_eq_some {β : Type} {own : Nat → Option β} {i j : Nat} {o : Option β} {b : β}
    (h : Function.update own i o j = some b) : (j = i ∧ o = some b) ∨ (j ≠ i ∧ own j = some b) := by
  by_cases hji : j = i
  · rw [hji, Function.update_self] at h
    exact Or.inl ⟨hji, h⟩
  · rw [Function.update_of_ne hji] at h
    exact Or.inr ⟨hji, h⟩

/-- A change of one slot does not move what was not there and does not come there. -/
theorem exists_update_iff {β : Type} {own : Nat → Option β} {i n : Nat} {o : Option β} {b : β} (hold : own i ≠ some b)
    (hnew : o ≠ some b) : (∃ j < n, Function.update own i o j = some b) ↔ ∃ j < n, own j = some b := by
  constructor
  · rintro ⟨j, hj, hslot⟩
    rcases update_eq_some hslot with ⟨-, ho⟩ | ⟨-, hslot⟩
    · exact absurd ho hnew
    · exact ⟨j, hj, hslot⟩
  · rintro ⟨j, hj, hslot⟩
    have hne : j ≠ i := by
      rintro rfl
      exact hold hslot
    refine ⟨j, hj, ?_⟩
    rw [Function.update_of_ne hne]
    exact hslot

/-- A slot that is filled. -/
theorem slots_fill {n : Nat} {own : Nat → Option (List α)} (hi : i < n) (hnone : own i = none)
    (xs : List α) : (slots n (Function.update own i (some xs))).Perm (xs :: slots n own) := by
  obtain ⟨before, behind, hsplit⟩ := List.append_of_mem (List.mem_range.mpr hi)
  have hnodup : (before ++ i :: behind).Nodup := hsplit ▸ List.nodup_range
  have hnot : i ∉ before ∧ i ∉ behind := by
    have hcons := (List.perm_middle.nodup_iff).mp hnodup
    have hnotin := (List.nodup_cons.mp hcons).1
    rw [List.mem_append] at hnotin
    exact ⟨fun h => hnotin (Or.inl h), fun h => hnotin (Or.inr h)⟩
  -- the other slots are as they were
  have hsame : ∀ l : List Nat, i ∉ l → l.filterMap (Function.update own i (some xs)) = l.filterMap own := by
    intro l hl
    refine List.filterMap_congr fun j hj => ?_
    have hne : j ≠ i := by
      rintro rfl
      exact hl hj
    exact Function.update_of_ne hne ..
  unfold slots
  rw [hsplit, List.filterMap_append, List.filterMap_append, List.filterMap_cons_some (Function.update_self ..),
    List.filterMap_cons_none hnone, hsame before hnot.1, hsame behind hnot.2]
  exact List.perm_middle

/-- **A slot is filled** with resources that are free. -/
theorem Ok.fill {used : Set α} {base : List (List α)} {n : Nat} {own : Nat → Option (List α)}
    (h : (Pool.mk used (base ++ slots n own)).Ok) (hi : i < n) (hnone : own i = none) (hnodup : xs.Nodup)
    (hfree : ∀ a ∈ xs, a ∉ used) :
    (Pool.mk (used ∪ {a | a ∈ xs}) (base ++ slots n (Function.update own i (some xs)))).Ok := by
  refine (h.grant hnodup hfree).of_perm rfl ?_
  show (base ++ slots n (Function.update own i (some xs))).Perm (base ++ slots n own ++ [xs])
  refine ((slots_fill hi hnone xs).append_left base).trans ?_
  exact List.perm_middle.trans (List.perm_append_singleton xs (base ++ slots n own)).symm

/-- **A slot is emptied.** -/
theorem Ok.empty {used : Set α} {base : List (List α)} {n : Nat} {own : Nat → Option (List α)}
    (h : (Pool.mk used (base ++ slots n own)).Ok) (hi : i < n) (hsome : own i = some xs) :
    (Pool.mk (used \ {a | a ∈ xs}) (base ++ slots n (Function.update own i none))).Ok := by
  have hback : Function.update (Function.update own i none) i (some xs) = own := by
    rw [Function.update_idem, ← hsome, Function.update_eq_self]
  have hperm : (base ++ slots n own).Perm (xs :: (base ++ slots n (Function.update own i none))) := by
    have hfill := slots_fill hi (Function.update_self i none own) xs
    rw [hback] at hfill
    exact (hfill.append_left base).trans List.perm_middle
  have hfirst : (Pool.mk used (xs :: (base ++ slots n (Function.update own i none)))).Ok :=
    h.of_perm rfl hperm.symm
  have hzero : (xs :: (base ++ slots n (Function.update own i none)))[0]? = some xs := rfl
  exact hfirst.revoke hzero

/-- **First fit** behind the numbers below `m`. -/
theorem firstFit_eq_range' {m : Nat} {xs : List Nat} (hsorted : xs.Pairwise (· < ·)) (hfree : ∀ n ∈ xs, m ≤ n)
    (hfirst : ∀ n ∈ xs, ∀ k < n, k < m ∨ k ∈ xs) : xs = List.range' m xs.length := by
  induction xs generalizing m with
  | nil => rfl
  | cons a xs ih =>
    obtain ⟨hbehind, hsorted'⟩ := List.pairwise_cons.mp hsorted
    have ha : a = m := by
      have hle := hfree a (List.mem_cons_self ..)
      refine Nat.le_antisymm (Nat.le_of_not_lt fun hlt => ?_) hle
      -- otherwise `m` itself was free
      rcases hfirst a (List.mem_cons_self ..) m hlt with hm | hm
      · omega
      · rcases List.mem_cons.mp hm with rfl | hm
        · omega
        · have hbefore := hbehind m hm
          omega
    have hrest : xs = List.range' (m + 1) xs.length := by
      refine ih hsorted' (fun n hn => ?_) fun n hn k hk => ?_
      · have hbefore := hbehind n hn
        omega
      · rcases hfirst n (List.mem_cons_of_mem _ hn) k hk with hlt | hmem
        · exact Or.inl (by omega)
        · rcases List.mem_cons.mp hmem with rfl | hmem
          · exact Or.inl (by omega)
          · exact Or.inr hmem
    rw [ha, List.length_cons, List.range'_succ, ← hrest]

end Pool

end Nachos
