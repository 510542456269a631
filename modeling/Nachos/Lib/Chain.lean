/-
  Chains of cells in a memory.

  A memory has at some addresses a cell: the address of another cell, or none, and a datum.  `Chain mem a cells b`
  says that who starts at `a` and follows the addresses goes through `cells`, in this order, and arrives at
  `b`; a list that ends is a chain that arrives at no address.

  What programs do to such lists are three things: they write somewhere else (`Chain.congr`), they REDIRECT the
  last cell of a chain (`Chain.redirect`), and they put a new cell behind some cell (`Chain.insert`, which is a
  redirection and two pieces of the old chain).
-/
import Mathlib.Data.List.Basic
import Mathlib.Data.List.Nodup
import Mathlib.Logic.Function.Basic

namespace Nachos

variable {β : Type}

/-- From `a` through `cells` to `b`. -/
def Chain (mem : Nat → Option (Option Nat × β)) : Option Nat → List (Nat × β) → Option Nat → Prop
  | a, [], b => a = b
  | a, (p, x) :: cells, b => a = some p ∧ ∃ n, mem p = some (n, x) ∧ Chain mem n cells b

variable {mem mem' : Nat → Option (Option Nat × β)} {a b c : Option Nat} {cells cells' : List (Nat × β)}
  {p : Nat} {x y : β}

/-- Two chains, one behind the other. -/
theorem chain_append : ∀ {a : Option Nat} {cells : List (Nat × β)},
    Chain mem a (cells ++ cells') c ↔ ∃ b, Chain mem a cells b ∧ Chain mem b cells' c := by
  intro a cells
  induction cells generalizing a with
  | nil =>
    constructor
    · intro h
      exact ⟨a, rfl, h⟩
    · rintro ⟨b, rfl, h⟩
      exact h
  | cons cell cells ih =>
    constructor
    · rintro ⟨ha, n, hmem, hrest⟩
      obtain ⟨b, hfirst, hsecond⟩ := ih.mp hrest
      exact ⟨b, ⟨ha, n, hmem, hfirst⟩, hsecond⟩
    · rintro ⟨b, ⟨ha, n, hmem, hfirst⟩, hsecond⟩
      exact ⟨ha, n, hmem, ih.mpr ⟨b, hfirst, hsecond⟩⟩

namespace Chain

/-- A chain depends on its cells. -/
theorem congr (h : Chain mem a cells b) (hsame : ∀ q ∈ cells.map Prod.fst, mem' q = mem q) :
    Chain mem' a cells b := by
  induction cells generalizing a with
  | nil => exact h
  | cons cell cells ih =>
    obtain ⟨ha, n, hmem, hrest⟩ := h
    refine ⟨ha, n, (hsame _ (List.mem_cons_self ..)).trans hmem, ih hrest fun q hq => ?_⟩
    exact hsame q (List.mem_cons_of_mem _ hq)

/-- A write beside a chain. -/
theorem update (h : Chain mem a cells b) (hp : p ∉ cells.map Prod.fst) (v : Option (Option Nat × β)) :
    Chain (Function.update mem p v) a cells b := by
  apply h.congr
  intro q hq
  apply Function.update_of_ne
  rintro rfl
  exact hp hq

/-- Where a chain starts. -/
theorem start (h : Chain mem a cells none) : a = cells.head?.map Prod.fst := by
  cases cells with
  | nil => exact h
  | cons cell cells => exact h.1

/-- There is one chain from an address to the end. -/
theorem unique (h : Chain mem a cells none) (h' : Chain mem a cells' none) : cells = cells' := by
  induction cells generalizing a cells' with
  | nil =>
    cases cells' with
    | nil => rfl
    | cons cell cells' => cases h.symm.trans h'.1
  | cons cell cells ih =>
    obtain ⟨ha, n, hmem, hrest⟩ := h
    cases cells' with
    | nil => cases ha.symm.trans h'
    | cons cell' cells' =>
      obtain ⟨ha', n', hmem', hrest'⟩ := h'
      have haddr : cell.1 = cell'.1 := Option.some.inj (ha.symm.trans ha')
      rw [haddr, hmem'] at hmem
      obtain ⟨rfl, hdata⟩ := Prod.mk.inj (Option.some.inj hmem)
      rw [ih hrest hrest', Prod.ext haddr hdata.symm]

/-- What a chain has in it is in memory. -/
theorem exists_of_mem (h : Chain mem a cells b) (hp : (p, x) ∈ cells) : ∃ n, mem p = some (n, x) := by
  induction cells generalizing a with
  | nil => exact absurd hp List.not_mem_nil
  | cons cell cells ih =>
    obtain ⟨-, n, hmem, hrest⟩ := h
    rcases List.mem_cons.mp hp with rfl | hp
    · exact ⟨n, hmem⟩
    · exact ih hrest hp

/-- **The last cell is redirected.** -/
theorem redirect (h : Chain mem a (cells ++ [(p, x)]) b) (hp : p ∉ cells.map Prod.fst) (c : Option Nat) :
    Chain (Function.update mem p (some (c, x))) a (cells ++ [(p, x)]) c := by
  obtain ⟨d, hfirst, hd, n, -, -⟩ := chain_append.mp h
  refine chain_append.mpr ⟨d, hfirst.update hp _, hd, c, ?_, rfl⟩
  rw [Function.update_self]

/-- **A new cell** behind the cell at `p`. -/
theorem insert {e : Nat} {n : Option Nat} (h : Chain mem a (cells ++ (p, x) :: cells') b)
    (hmem : mem p = some (n, x)) (hnodup : ((cells ++ (p, x) :: cells').map Prod.fst).Nodup)
    (he : e ∉ (cells ++ (p, x) :: cells').map Prod.fst) :
    Chain (Function.update (Function.update mem e (some (n, y))) p (some (some e, x))) a
      (cells ++ (p, x) :: (e, y) :: cells') b := by
  have hsplit : cells ++ (p, x) :: cells' = (cells ++ [(p, x)]) ++ cells' := by simp
  rw [hsplit] at h hnodup he
  rw [List.map_append] at hnodup he
  obtain ⟨d, hfirst, hsecond⟩ := chain_append.mp h
  -- where the cell at `p` pointed to is where the rest starts
  have hd : d = n := by
    obtain ⟨-, -, -, n', hmem', hd⟩ := chain_append.mp hfirst
    rw [hmem] at hmem'
    exact hd.symm.trans (congrArg Prod.fst (Option.some.inj hmem')).symm
  subst hd
  obtain ⟨hnodup₁, -, hdisj⟩ := List.nodup_append.mp hnodup
  have hpin : p ∈ (cells ++ [(p, x)]).map Prod.fst :=
    List.mem_map.mpr ⟨(p, x), List.mem_append.mpr (Or.inr (List.mem_singleton_self _)), rfl⟩
  have hp₁ : p ∉ cells.map Prod.fst := by
    rw [List.map_append] at hnodup₁
    intro hmemp
    exact (List.nodup_append.mp hnodup₁).2.2 p hmemp p (List.mem_singleton_self _) rfl
  have hp₂ : p ∉ cells'.map Prod.fst := fun hmemp => hdisj p hpin p hmemp rfl
  have he₁ : e ∉ (cells ++ [(p, x)]).map Prod.fst := fun hmeme => he (List.mem_append.mpr (Or.inl hmeme))
  have he₂ : e ∉ cells'.map Prod.fst := fun hmeme => he (List.mem_append.mpr (Or.inr hmeme))
  have hpe : e ≠ p := by
    rintro rfl
    exact he₁ hpin
  have hnew : cells ++ (p, x) :: (e, y) :: cells' = (cells ++ [(p, x)]) ++ (e, y) :: cells' := by simp
  rw [hnew]
  refine chain_append.mpr ⟨some e, (hfirst.update he₁ _).redirect hp₁ _, rfl, d, ?_, ?_⟩
  · rw [Function.update_of_ne hpe, Function.update_self]
  · exact (hsecond.update he₂ _).update hp₂ _

end Chain

end Nachos
