/-
  OBJECTS THAT ARE CALLED, and what their replies mean.

  An object has a state and answers one call after the other; a call that fails is `none`.  What an object is FOR is said
  by a specification: which replies and next states an abstract state allows for a call.

  * `Calls.runs_refines` — if every call on related states succeeds and the specification allows its reply, then so it
                           is for every list of calls;
  * `SpecRuns.history`   — an invariant of the specification that may speak of all the calls made so far.
-/
import Mathlib.Data.List.Basic

namespace Nachos

namespace Calls

variable {σ τ ω ρ : Type}

/-- A list of calls, and the replies. -/
def runs (call : σ → ω → Option (ρ × σ)) : σ → List ω → Option (List ρ × σ)
  | s, [] => some ([], s)
  | s, op :: ops => (call s op).bind fun r => (runs call r.2 ops).map fun rs => (r.1 :: rs.1, rs.2)

/-- A list of calls that the specification allows, with these replies. -/
inductive SpecRuns (spec : τ → ω → ρ → τ → Prop) : τ → List ω → List ρ → τ → Prop where
  | nil (t : τ) : SpecRuns spec t [] [] t
  | cons {t t' t'' : τ} {op : ω} {r : ρ} {ops : List ω} {rs : List ρ} (hstep : spec t op r t')
      (hrest : SpecRuns spec t' ops rs t'') : SpecRuns spec t (op :: ops) (r :: rs) t''

/-- **The refinement rule.** -/
theorem runs_refines {call : σ → ω → Option (ρ × σ)} {spec : τ → ω → ρ → τ → Prop} {R : σ → τ → Prop}
    (hstep : ∀ s t op, R s t → ∃ r s' t', call s op = some (r, s') ∧ spec t op r t' ∧ R s' t') (ops : List ω) :
    ∀ {s : σ} {t : τ}, R s t → ∃ rs s' t', runs call s ops = some (rs, s') ∧ SpecRuns spec t ops rs t' ∧ R s' t' := by
  induction ops with
  | nil =>
    intro s t h
    exact ⟨[], s, t, rfl, .nil t, h⟩
  | cons op ops ih =>
    intro s t h
    obtain ⟨r, s₁, t₁, hcall, hspec, h₁⟩ := hstep s t op h
    obtain ⟨rs, s', t', hruns, hspecs, h'⟩ := ih h₁
    refine ⟨r :: rs, s', t', ?_, .cons hspec hspecs, h'⟩
    rw [runs, hcall, Option.bind_some, hruns, Option.map_some]

/-- **The history rule**: what holds of no calls and is kept by a call, holds of all calls together. -/
theorem SpecRuns.history {spec : τ → ω → ρ → τ → Prop} {ok : ω → Prop} {I : List ω → τ → Prop}
    (hstep : ∀ made t op r t', ok op → I made t → spec t op r t' → I (made ++ [op]) t') {t t' : τ} {ops : List ω}
    {rs : List ρ} (h : SpecRuns spec t ops rs t') :
    ∀ {made : List ω}, (∀ op ∈ ops, ok op) → I made t → I (made ++ ops) t' := by
  induction h with
  | nil t =>
    intro made _ hI
    rw [List.append_nil]
    exact hI
  | cons hspec hrest ih =>
    intro made hok hI
    obtain ⟨hop, hops⟩ := List.forall_mem_cons.mp hok
    have hnext := ih hops (hstep _ _ _ _ _ hop hI hspec)
    rw [List.append_assoc] at hnext
    exact hnext

end Calls

end Nachos
