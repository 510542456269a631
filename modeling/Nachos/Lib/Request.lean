/-
  One request at a time.

  A device takes a request, and some time later ANNOUNCES that it is done.  A process that issues a
  request waits for an announcement, counted by `value`, and takes it.  If a request is only issued
  while nobody waits, there are three situations, and they are the constructors of `Requests`:

  * `idle`       — nobody waits, nothing is pending, nothing is announced;
  * `issued`     — one process waits, and its request is pending;
  * `completed`  — one process waits, and its request is done and announced.

  So at most one request is pending, and the announcement that a process takes is that of its OWN
  request.  Requests are numbered; processes are of any type.

  The other direction is `Takers`: a device announces things on its own, and a process that takes an
  announcement goes on to USE it.  If processes take one at a time, the announcements that were not used
  yet are those not taken, and the one in the taker's hands.
-/
import Mathlib.Data.List.Basic
import Mathlib.Logic.Function.Basic

namespace Nachos

/-- The three situations: `waiting t` is the request that `t` waits for, `done` the requests that
    were announced; then the pending requests, and the announcements not taken yet. -/
inductive Requests {τ : Type} (waiting : τ → Option Nat) (done : List Nat) : List Nat → Int → Prop where
  | idle (hnone : ∀ t, waiting t = none) : Requests waiting done [] 0
  | issued {t : τ} {n : Nat} (ht : waiting t = some n) (hothers : ∀ w, w ≠ t → waiting w = none) :
      Requests waiting done [n] 0
  | completed {t : τ} {n : Nat} (ht : waiting t = some n)
      (hothers : ∀ w, w ≠ t → waiting w = none) (hn : n ∈ done) : Requests waiting done [] 1

namespace Requests

variable {τ : Type} {waiting : τ → Option Nat} {done pending : List Nat} {value : Int}

theorem length_le (h : Requests waiting done pending value) : pending.length ≤ 1 := by
  cases h with
  | idle hnone => exact Nat.zero_le 1
  | issued ht hothers => exact Nat.le_of_eq rfl
  | completed ht hothers hn => exact Nat.zero_le 1

/-- While nobody waits, nothing is pending and nothing is announced. -/
theorem of_none (h : Requests waiting done pending value) (hnone : ∀ t, waiting t = none) :
    pending = [] ∧ value = 0 := by
  cases h with
  | idle _ => exact ⟨rfl, rfl⟩
  | issued ht hothers | completed ht hothers hn =>
    rw [hnone] at ht
    cases ht

/-- Who waits is the only one. -/
theorem eq_of_waiting (h : Requests waiting done pending value) {t w : τ} {n m : Nat}
    (ht : waiting t = some n) (hw : waiting w = some m) : w = t := by
  have hunique : ∀ {r : τ}, (∀ v, v ≠ r → waiting v = none) → ∀ {v k}, waiting v = some k → v = r := by
    intro r hothers v k hv
    refine Classical.byContradiction fun hne => ?_
    rw [hothers v hne] at hv
    cases hv
  cases h with
  | idle hnone =>
    rw [hnone] at ht
    cases ht
  | issued hr hothers | completed hr hothers hn => exact (hunique hothers hw).trans (hunique hothers ht).symm

/-- Nothing is pending beside a pending request. -/
theorem erase_eq_nil (h : Requests waiting done pending value) {n : Nat} (hn : n ∈ pending) :
    pending.erase n = [] := by
  have hlen := h.length_le
  have herase := List.length_erase_of_mem hn
  exact List.eq_nil_of_length_eq_zero (by omega)

/-- The announcement of a pending request. -/
theorem announce (h : Requests waiting done pending value) {n : Nat} (hn : n ∈ pending) :
    Requests waiting (done ++ [n]) (pending.erase n) (value + 1) := by
  cases h with
  | idle hnone => exact absurd hn List.not_mem_nil
  | @issued t m ht hothers =>
    obtain rfl : n = m := List.mem_singleton.mp hn
    rw [List.erase_cons_head]
    have hmem : n ∈ done ++ [n] := List.mem_append.mpr (Or.inr (List.mem_singleton.mpr rfl))
    exact completed ht hothers hmem
  | completed ht hothers hn' => exact absurd hn List.not_mem_nil

variable [DecidableEq τ]

/-- Nobody waits, and `t` issues a request. -/
theorem issue (h : Requests waiting done pending value) (hnone : ∀ t, waiting t = none) (t : τ)
    (n : Nat) : Requests (Function.update waiting t (some n)) done (pending ++ [n]) value := by
  obtain ⟨rfl, rfl⟩ := h.of_none hnone
  refine issued (t := t) (Function.update_self t (some n) waiting) fun w hw => ?_
  rw [Function.update_of_ne hw]
  exact hnone w

/-- `t` takes the announcement: it is that of its own request. -/
theorem take (h : Requests waiting done pending value) {t : τ} {n : Nat} (ht : waiting t = some n)
    (hv : value ≠ 0) : n ∈ done ∧ Requests (Function.update waiting t none) done pending (value - 1) := by
  cases h with
  | idle hnone | issued ht' hothers => exact absurd rfl hv
  | @completed r m hr hothers hm =>
    have hall : Requests waiting done [] 1 := completed hr hothers hm
    obtain rfl : t = r := hall.eq_of_waiting hr ht
    obtain rfl : m = n := by
      rw [hr] at ht
      exact Option.some.inj ht
    refine ⟨hm, idle fun w => ?_⟩
    by_cases hw : w = t
    · rw [hw, Function.update_self]
    · rw [Function.update_of_ne hw]
      exact hothers w hw

/-- A process that does not wait does something else. -/
theorem other (h : Requests waiting done pending value) {t : τ} (ht : waiting t = none) :
    Requests (Function.update waiting t none) done pending value := by
  rw [Function.update_eq_self_iff.mpr ht.symm]
  exact h

end Requests

/-! ## Announcements and their takers -/

/-- The announcements not taken yet, and how many there are that were not used yet: a process that
    has taken one (`taking`) and not used it is the only one. -/
inductive Takers {τ : Type} (taking : τ → Bool) : Int → Nat → Prop where
  | idle {n : Nat} (hnone : ∀ t, taking t = false) : Takers taking n n
  | busy {t : τ} {n : Nat} (ht : taking t = true) (hothers : ∀ w, taking w = true → w = t) :
      Takers taking n (n + 1)

namespace Takers

variable {τ : Type} {taking : τ → Bool} {value : Int} {unused : Nat}

theorem announce (h : Takers taking value unused) : Takers taking (value + 1) (unused + 1) := by
  cases h with
  | idle hnone => exact idle (n := unused + 1) hnone
  | @busy t n ht hothers => exact busy (n := n + 1) ht hothers

/-- A process with an announcement in its hands: it was announced. -/
theorem pos (h : Takers taking value unused) {t : τ} (ht : taking t = true) : 0 < unused := by
  cases h with
  | idle hnone =>
    rw [hnone t] at ht
    cases ht
  | busy _ _ => exact Nat.succ_pos _

variable [DecidableEq τ]

/-- Nobody is taking, and `t` takes an announcement. -/
theorem take (h : Takers taking value unused) (hnone : ∀ t, taking t = false) (hv : value ≠ 0)
    (t : τ) : Takers (Function.update taking t true) (value - 1) unused := by
  cases h with
  | idle _ =>
    have hpos : 0 < unused := by omega
    obtain ⟨m, rfl⟩ : ∃ m, unused = m + 1 := ⟨unused - 1, by omega⟩
    have hvalue : ((m + 1 : Nat) : Int) - 1 = m := by omega
    rw [hvalue]
    refine busy (t := t) (Function.update_self t true taking) fun w hw => ?_
    refine Classical.byContradiction fun hne => ?_
    rw [Function.update_of_ne hne, hnone w] at hw
    cases hw
  | busy ht _ =>
    rw [hnone] at ht
    cases ht

/-- The taker uses its announcement. -/
theorem use (h : Takers taking value unused) {t : τ} (ht : taking t = true) :
    ∃ m, unused = m + 1 ∧ Takers (Function.update taking t false) value m := by
  cases h with
  | idle hnone =>
    rw [hnone t] at ht
    cases ht
  | @busy r n hr hothers =>
    obtain rfl : t = r := hothers t ht
    refine ⟨n, rfl, idle fun w => ?_⟩
    by_cases hw : w = t
    · rw [hw, Function.update_self]
    · rw [Function.update_of_ne hw]
      cases hx : taking w with
      | false => rfl
      | true => exact absurd (hothers w hx) hw

/-- A process that is not taking does something else. -/
theorem other (h : Takers taking value unused) {t : τ} (ht : taking t = false) :
    Takers (Function.update taking t false) value unused := by
  rw [Function.update_eq_self_iff.mpr ht.symm]
  exact h

end Takers

end Nachos
