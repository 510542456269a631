/-
  Labelled transition systems, and the four rules this development argues with.

  A system is a set of initial states and a step relation; nothing here knows what a state or a
  label is.  `Reach` is reachability, and the rules are

  * `Reach.invariant`   — what holds initially and is kept by every step from a reachable state
                          holds in every reachable state;
  * `Reach.simulate`    — a map that sends every step to a step of another system, or to no step
                          at all, sends reachable states to reachable states;
  * `reach_replay`      — a replayed list of labels ends in a reachable state (the step relation
                          being the graph of an executable step function);
  * `Exec.good_iff`     — for a run with its whole history: a property holds in every state the run
                          visits IFF every step of the run meets a condition, provided the condition
                          is enough and a step that fails it destroys the property.
-/
import Mathlib.Data.List.Basic
import Mathlib.Logic.Function.Basic

namespace Nachos

/-- A labelled transition system: initial states and labelled steps. -/
structure Lts (σ ℓ : Type) where
  /-- The states a run may start in. -/
  init : σ → Prop
  /-- `step s l s'` — the system can go from `s` to `s'` by `l`. -/
  step : σ → ℓ → σ → Prop

namespace Lts

variable {σ τ ℓ κ : Type}

/-! ## Reachable states -/

/-- The states some run reaches. -/
inductive Reach (M : Lts σ ℓ) : σ → Prop where
  | init {s : σ} (h : M.init s) : Reach M s
  | step {s s' : σ} {l : ℓ} (h : Reach M s) (hs : M.step s l s') : Reach M s'

/-- **The invariant rule.**  Reachability of the source state is available in the step case, so
    invariants can be proved one on top of the other. -/
theorem Reach.invariant {M : Lts σ ℓ} {I : σ → Prop} (h0 : ∀ s, M.init s → I s)
    (hstep : ∀ s l s', M.Reach s → I s → M.step s l s' → I s') {s : σ} (h : M.Reach s) : I s := by
  induction h with
  | init hi => exact h0 _ hi
  | step hr hs ih => exact hstep _ _ _ hr ih hs

/-- **The simulation rule.**  `f` sends every step of `M` to a step of `N`, or stutters; the step may
    be justified by what is known of the reachable states of `N`. -/
theorem Reach.simulate {M : Lts σ ℓ} {N : Lts τ κ} (f : σ → τ)
    (h0 : ∀ s, M.init s → N.init (f s))
    (hstep : ∀ s l s', M.Reach s → N.Reach (f s) → M.step s l s' →
      f s' = f s ∨ ∃ l', N.step (f s) l' (f s'))
    {s : σ} (h : M.Reach s) : N.Reach (f s) := by
  induction h with
  | init hi => exact .init (h0 _ hi)
  | step hr hs ih =>
    rcases hstep _ _ _ hr ih hs with heq | ⟨l', hl'⟩
    · rw [heq]; exact ih
    · exact .step ih hl'

/-! ## Runs all of whose steps meet a condition -/

/-- `M` with the steps that fail `ok` taken away.  `ok` sees the state BEFORE the step and the
    label, so it is a condition on what the run does, not on what comes out of it. -/
def restrict (M : Lts σ ℓ) (ok : σ → ℓ → Prop) : Lts σ ℓ where
  init := M.init
  step s l s' := ok s l ∧ M.step s l s'

theorem Reach.of_restrict {M : Lts σ ℓ} {ok : σ → ℓ → Prop} {s : σ}
    (h : (M.restrict ok).Reach s) : M.Reach s := by
  induction h with
  | init hi => exact .init hi
  | step _ hs ih => exact .step ih hs.2

/-- A weaker condition allows more runs. -/
theorem Reach.weaken {M : Lts σ ℓ} {ok ok' : σ → ℓ → Prop} {s : σ} (h : (M.restrict ok).Reach s)
    (himp : ∀ s l, ok s l → ok' s l) : (M.restrict ok').Reach s := by
  induction h with
  | init hi => exact .init hi
  | step _ hs ih => exact .step ih ⟨himp _ _ hs.1, hs.2⟩

/-- The converse, when the steps that can be taken from the states of restricted runs all meet the
    condition: then every run is a restricted one. -/
theorem Reach.to_restrict {M : Lts σ ℓ} {ok : σ → ℓ → Prop}
    (hok : ∀ s l s', (M.restrict ok).Reach s → M.step s l s' → ok s l) {s : σ} (h : M.Reach s) :
    (M.restrict ok).Reach s := by
  induction h with
  | init hi => exact .init hi
  | step _ hs ih => exact .step ih ⟨hok _ _ _ ih hs, hs⟩

/-! ## Replaying a list of labels -/

/-- The state an executable step function reaches along a list of labels; it stops at the first
    label that is not enabled. -/
def replay (step : σ → ℓ → Option σ) : σ → List ℓ → σ
  | s, [] => s
  | s, l :: ls =>
    match step s l with
    | some s' => replay step s' ls
    | none => s

/-- A replay that starts in a reachable state ends in one. -/
theorem reach_replay {M : Lts σ ℓ} {step : σ → ℓ → Option σ}
    (hM : ∀ s l s', step s l = some s' → M.step s l s') :
    ∀ {s : σ}, M.Reach s → ∀ ls : List ℓ, M.Reach (replay step s ls) := by
  intro s hs ls
  induction ls generalizing s with
  | nil => exact hs
  | cons l ls ih =>
    unfold replay
    split
    · rename_i s' hl
      exact ih (hs.step (hM _ _ _ hl))
    · exact hs

/-! ## Runs with their history -/

/-- `Exec M tr s` — a run of `M` that ends in `s`; `tr` lists its steps, each as the state it was
    taken in and its label. -/
inductive Exec (M : Lts σ ℓ) : List (σ × ℓ) → σ → Prop where
  | init {s : σ} (h : M.init s) : Exec M [] s
  | step {tr : List (σ × ℓ)} {s s' : σ} {l : ℓ} (h : Exec M tr s) (hs : M.step s l s') :
      Exec M (tr ++ [(s, l)]) s'

theorem Exec.reach {M : Lts σ ℓ} {tr : List (σ × ℓ)} {s : σ} (h : Exec M tr s) : M.Reach s := by
  induction h with
  | init hi => exact .init hi
  | step _ hs ih => exact .step ih hs

/-- The states a run visits are reachable. -/
theorem Exec.reach_of_mem {M : Lts σ ℓ} {tr : List (σ × ℓ)} {s : σ} (h : Exec M tr s) : ∀ e ∈ tr, M.Reach e.1 := by
  induction h with
  | init hi => exact fun e he => absurd he List.not_mem_nil
  | step hrun hs ih =>
    intro e he
    rcases List.mem_append.mp he with he | he
    · exact ih e he
    · obtain rfl := List.mem_singleton.mp he
      exact hrun.reach

/-- The steps of a replay. -/
def trace (step : σ → ℓ → Option σ) : σ → List ℓ → List (σ × ℓ)
  | _, [] => []
  | s, l :: ls =>
    match step s l with
    | some s' => (s, l) :: trace step s' ls
    | none => []

/-- A replay continues a run. -/
theorem exec_replay {M : Lts σ ℓ} {step : σ → ℓ → Option σ}
    (hM : ∀ s l s', step s l = some s' → M.step s l s') :
    ∀ {tr : List (σ × ℓ)} {s : σ}, Exec M tr s → ∀ ls : List ℓ,
      Exec M (tr ++ trace step s ls) (replay step s ls) := by
  intro tr s hs ls
  induction ls generalizing tr s with
  | nil =>
    rw [trace, List.append_nil]
    exact hs
  | cons l ls ih =>
    unfold trace replay
    cases hl : step s l with
    | none =>
      rw [List.append_nil]
      exact hs
    | some s' =>
      have hnext := ih (hs.step (hM _ _ _ hl))
      rw [List.append_assoc] at hnext
      exact hnext

/-- A run whose steps all meet `ok` is a run of the restricted system. -/
theorem Exec.reach_restrict {M : Lts σ ℓ} {ok : σ → ℓ → Prop} {tr : List (σ × ℓ)} {s : σ}
    (h : Exec M tr s) (hok : ∀ e ∈ tr, ok e.1 e.2) : (M.restrict ok).Reach s := by
  induction h with
  | init hi => exact .init hi
  | @step tr s s' l _ hs ih =>
    have hl : ok s l := hok (s, l) (List.mem_append.mpr (Or.inr (List.mem_singleton.mpr rfl)))
    exact .step (ih fun e he => hok e (List.mem_append.mpr (Or.inl he))) ⟨hl, hs⟩

/-- **The exact-condition rule.**  If `ok` steps keep `Good` (`hgood`) and a step that fails `ok`
    destroys it (`hbad`), then a run visits `Good` states only IFF all its steps are `ok`. -/
theorem Exec.good_iff {M : Lts σ ℓ} (Good : σ → Prop) (ok : σ → ℓ → Prop)
    (hgood : ∀ s, (M.restrict ok).Reach s → Good s)
    (hbad : ∀ s l s', M.Reach s → M.step s l s' → ¬ ok s l → ¬ Good s')
    {tr : List (σ × ℓ)} {s : σ} (h : Exec M tr s) :
    ((∀ e ∈ tr, Good e.1) ∧ Good s) ↔ ∀ e ∈ tr, ok e.1 e.2 := by
  induction h with
  | init hi =>
    constructor
    · intro _ e he
      exact absurd he List.not_mem_nil
    · intro _
      exact ⟨fun e he => absurd he List.not_mem_nil, hgood _ (.init hi)⟩
  | @step tr s s' l hx hs ih =>
    have hall := hx.step hs
    constructor
    · rintro ⟨hvis, hend⟩ e he
      have hprev : ∀ e ∈ tr, ok e.1 e.2 :=
        ih.mp ⟨fun e he => hvis e (List.mem_append.mpr (Or.inl he)),
          hvis (s, l) (List.mem_append.mpr (Or.inr (List.mem_singleton.mpr rfl)))⟩
      rcases List.mem_append.mp he with he | he
      · exact hprev e he
      · -- the last step: had it failed `ok`, the state it led to would not be `Good`
        obtain rfl := List.mem_singleton.mp he
        exact Classical.byContradiction fun hno => hbad s l s' hx.reach hs hno hend
    · intro hok
      have hprev := ih.mpr fun e he => hok e (List.mem_append.mpr (Or.inl he))
      refine ⟨fun e he => ?_, hgood _ (hall.reach_restrict hok)⟩
      rcases List.mem_append.mp he with he | he
      · exact hprev.1 e he
      · obtain rfl := List.mem_singleton.mp he
        exact hprev.2

end Lts

end Nachos
