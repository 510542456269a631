/-
  Stable queues: the highest priority first, and among equals the one that came first.

  The queue is the list of what is waiting, in the order of arrival, each with its priority.  `StableStep` says
  what the two operations do: to add goes to the end; to take removes the member before which all priorities
  are lower and behind which none is higher.  There is only one such member, if there is any.

  An implementation with one FIFO list for each priority keeps the LEVELS of the queue: `level m i` are the
  members of priority `i`, in their order.
-/
import Mathlib.Data.List.Basic

namespace Nachos

variable {α : Type}

/-- The operations. -/
inductive QueueOp (α : Type) where
  | add (x : α) (priority : Nat)
  | take

/-- **What the operations do**: the queue before, the operation, what is taken, and the queue after. -/
inductive StableStep : List (α × Nat) → QueueOp α → Option α → List (α × Nat) → Prop where
  | add {m : List (α × Nat)} {x : α} {priority : Nat} :
      StableStep m (.add x priority) none (m ++ [(x, priority)])
  | takeNone : StableStep [] .take none []
  | take {before behind : List (α × Nat)} {x : α} {priority : Nat}
      (hbefore : ∀ y ∈ before, y.2 < priority) (hbehind : ∀ y ∈ behind, y.2 ≤ priority) :
      StableStep (before ++ (x, priority) :: behind) .take (some x) (before ++ behind)

/-- Several operations, and what each of them takes. -/
inductive StableRun : List (α × Nat) → List (QueueOp α) → List (Option α) → List (α × Nat) → Prop where
  | nil {m : List (α × Nat)} : StableRun m [] [] m
  | cons {m m' m'' : List (α × Nat)} {op : QueueOp α} {ops : List (QueueOp α)} {o : Option α}
      {outs : List (Option α)} (hstep : StableStep m op o m') (hrun : StableRun m' ops outs m'') :
      StableRun m (op :: ops) (o :: outs) m''

/-- The members of one priority. -/
def level (m : List (α × Nat)) (i : Nat) : List α := (m.filter (·.2 == i)).map Prod.fst

variable {m before behind : List (α × Nat)} {x : α} {xs : List α} {i j : Nat}

theorem level_append (m m' : List (α × Nat)) (i : Nat) : level (m ++ m') i = level m i ++ level m' i := by
  rw [level, List.filter_append, List.map_append]
  rfl

theorem level_cons_self (x : α) (i : Nat) (m : List (α × Nat)) : level ((x, i) :: m) i = x :: level m i := by
  simp only [level, List.filter_cons, beq_self_eq_true, if_true, List.map_cons]

theorem level_cons_of_ne (x : α) (m : List (α × Nat)) (h : i ≠ j) : level ((x, i) :: m) j = level m j := by
  simp only [level, List.filter_cons, beq_iff_eq, h, if_false]

theorem level_eq_nil : level m i = [] ↔ ∀ y ∈ m, y.2 ≠ i := by
  rw [level, List.map_eq_nil_iff, List.filter_eq_nil_iff]
  simp only [beq_iff_eq, ne_eq]

/-- The first member of a level, in the queue. -/
theorem level_split : ∀ {m : List (α × Nat)}, level m i = x :: xs →
    ∃ before behind, m = before ++ (x, i) :: behind ∧ (∀ y ∈ before, y.2 ≠ i) ∧ level behind i = xs := by
  intro m h
  induction m with
  | nil => cases h
  | cons yj m ih =>
    obtain ⟨y, j⟩ := yj
    by_cases hj : j = i
    · subst hj
      rw [level_cons_self] at h
      obtain ⟨rfl, hrest⟩ := List.cons.inj h
      exact ⟨[], m, rfl, fun _ hz => absurd hz List.not_mem_nil, hrest⟩
    · rw [level_cons_of_ne y m hj] at h
      obtain ⟨before, behind, rfl, hbefore, hrest⟩ := ih h
      exact ⟨(y, j) :: before, behind, rfl, List.forall_mem_cons.mpr ⟨hj, hbefore⟩, hrest⟩

/-- **Taking from the highest level.**  If no member is above priority `i`, taking the first of that level is a
    step of the queue, and the levels are those before without it. -/
theorem stableStep_of_level (h : level m i = x :: xs) (hmax : ∀ y ∈ m, y.2 ≤ i) :
    ∃ m', StableStep m .take (some x) m' ∧ level m' i = xs ∧ (∀ j, j ≠ i → level m' j = level m j) ∧
      ∀ y ∈ m', y ∈ m := by
  obtain ⟨before, behind, rfl, hbefore, hrest⟩ := level_split h
  refine ⟨before ++ behind, .take (fun y hy => ?_) (fun y hy => ?_), ?_, fun j hj => ?_, fun y hy => ?_⟩
  · have hle := hmax y (List.mem_append.mpr (Or.inl hy))
    have hne := hbefore y hy
    omega
  · exact hmax y (List.mem_append.mpr (Or.inr (List.mem_cons_of_mem _ hy)))
  · rw [level_append, level_eq_nil.mpr hbefore, hrest]
    rfl
  · rw [level_append, level_append, level_cons_of_ne x behind (Ne.symm hj)]
  · rcases List.mem_append.mp hy with hy | hy
    · exact List.mem_append.mpr (Or.inl hy)
    · exact List.mem_append.mpr (Or.inr (List.mem_cons_of_mem _ hy))

end Nachos
