/-
  Two PARTIAL computations side by side.

  A computation that may not go on returns an `Option`.  Two of them are related when both stop, or both go on with
  related results (`Option.Rel`).

  1. **Sequencing** — related computations followed by related ones are related (`rel_bind`).

  2. **Runs** (`run`) — a run applies one step after the other, and the step may depend on how many were made
     before.  If each step takes related states to related ones, so do the runs (`rel_run`).

  3. **Loops with an error** — an invariant of a loop over a list may speak of the elements that are done
     (`foldlM_done`).
-/
import Mathlib.Data.Option.Basic

namespace Nachos.Partial

variable {α β γ δ : Type} {R : α → β → Prop} {S : γ → δ → Prop}

/-- **Sequencing** keeps computations related. -/
theorem rel_bind {x : Option α} {y : Option β} {f : α → Option γ} {g : β → Option δ} (hxy : Option.Rel R x y)
    (hfg : ∀ a b, R a b → Option.Rel S (f a) (g b)) : Option.Rel S (x.bind f) (y.bind g) := by
  cases hxy with
  | some hab => exact hfg _ _ hab
  | none => exact .none

theorem rel_map {x : Option α} {y : Option β} {f : α → γ} {g : β → δ} (hxy : Option.Rel R x y)
    (hfg : ∀ a b, R a b → S (f a) (g b)) : Option.Rel S (x.map f) (y.map g) := by
  cases hxy with
  | some hab => exact .some (hfg _ _ hab)
  | none => exact .none

/-- What related results agree on, the computations agree on. -/
theorem bind_eq_of_rel {x : Option α} {y : Option β} {f : α → Option γ} {g : β → Option γ} (hxy : Option.Rel R x y)
    (hfg : ∀ a b, x = some a → R a b → f a = g b) : x.bind f = y.bind g := by
  cases hxy with
  | some hab => exact hfg _ _ rfl hab
  | none => rfl

theorem rel_trans {T : α → γ → Prop} {x : Option α} {y : Option β} {z : Option γ} {Q : β → γ → Prop}
    (hxy : Option.Rel R x y) (hyz : Option.Rel Q y z) (htrans : ∀ a b c, R a b → Q b c → T a c) :
    Option.Rel T x z := by
  cases hxy with
  | some hab =>
    cases hyz with
    | some hbc => exact .some (htrans _ _ _ hab hbc)
  | none =>
    cases hyz
    exact .none

theorem rel_symm {Q : β → α → Prop} {x : Option α} {y : Option β} (hxy : Option.Rel R x y)
    (hsymm : ∀ a b, R a b → Q b a) : Option.Rel Q y x := by
  cases hxy with
  | some hab => exact .some (hsymm _ _ hab)
  | none => exact .none

/-- So many steps, the `k`-th of which is `step k`. -/
def run (step : Nat → α → Option α) : Nat → α → Option α
  | 0, a => some a
  | n + 1, a => (run step n a).bind (step n)

/-- **Runs side by side**: what each step keeps related stays related.  The step may use that the states are those of
    the two runs. -/
theorem rel_run {f : Nat → α → Option α} {g : Nat → β → Option β} {a : α} {b : β} (hab : R a b) {n : Nat}
    (hstep : ∀ k < n, ∀ x y, run f k a = some x → run g k b = some y → R x y → Option.Rel R (f k x) (g k y)) :
    Option.Rel R (run f n a) (run g n b) := by
  induction n with
  | zero => exact .some hab
  | succ n ih =>
    have hrel := ih fun k hk => hstep k (Nat.lt_succ_of_lt hk)
    rw [run, run]
    cases hx : run f n a with
    | none =>
      rw [hx] at hrel
      cases hy : run g n b with
      | none => exact .none
      | some y => rw [hy] at hrel; cases hrel
    | some x =>
      rw [hx] at hrel
      cases hy : run g n b with
      | none => rw [hy] at hrel; cases hrel
      | some y =>
        rw [hy] at hrel
        cases hrel with
        | some hxy => exact hstep n (Nat.lt_succ_self n) x y hx hy hxy

theorem eq_ok_of_map {ε : Type} {x : Except ε α} {f : α → β} {b : β} (h : x.map f = .ok b) :
    ∃ a, x = .ok a ∧ f a = b := by
  cases x with
  | error e => cases h
  | ok a => exact ⟨a, rfl, Except.ok.inj h⟩

/-- **A loop that ends without an error**: what holds of the elements done and the state, and is kept by each step, holds
    at the end of all elements. -/
theorem foldlM_done {ε : Type} {f : β → α → Except ε β} {I : List α → β → Prop} {all : List α}
    (hstep : ∀ done a rest b b', all = done ++ a :: rest → I done b → f b a = .ok b' → I (done ++ [a]) b') :
    ∀ (rest done : List α) (b b' : β), all = done ++ rest → I done b → rest.foldlM f b = .ok b' → I all b' := by
  intro rest
  induction rest with
  | nil =>
    intro done b b' hall hI h
    have hb : b = b' := Except.ok.inj h
    rw [hall, List.append_nil, ← hb]
    exact hI
  | cons a rest ih =>
    intro done b b' hall hI h
    rw [List.foldlM_cons] at h
    cases hfa : f b a with
    | error e =>
      rw [hfa] at h
      cases h
    | ok b₁ =>
      rw [hfa] at h
      apply ih (done ++ [a]) b₁ b' _ (hstep done a rest b b₁ hall hI hfa) h
      rw [hall, List.append_assoc, List.singleton_append]

end Nachos.Partial
