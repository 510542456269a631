/-
  `threads/synch.cc`, `Semaphore` — one semaphore, as the code between two `SetLevel` calls sees it.

  `P` and `V` run with interrupts off, so each of them is one atomic action on the two fields
  `value` and `queue`:

  * `P`  — one pass of `while (value == 0) { queue->Append(currentThread); Sleep(); }  value--`:
           the thread either goes to sleep at the end of `queue` (and comes back to the SAME test when
           it is woken), or gets through and takes one from `value`;
  * `V`  — takes the first sleeper off `queue`, if any, and adds one to `value` in either case.

  Beside the semaphore runs its HISTORY (`SemLog`): how many `P` and `V` were completed, and which
  threads a `V` has dequeued that have not come back to the `while` test yet.  The code keeps none of
  this; it is what the specification is written in.

  `value` is an `int`: what `value++` and `value--` compute wraps around (`int32`).  The history has the
  number it stands for (`SemLog.count`), and `SemOk` says that the two agree as long as that number is
  below 2^31.
-/
import Nachos.Lib.Bytes

namespace Nachos

/-- A thread: the address of its `Thread` object. -/
abbrev Tid := Nat

/-- `class Semaphore`: the value, and the threads waiting in `P()` because the value is zero. -/
structure Semaphore where
  value : Int
  queue : List Tid

namespace Semaphore

/-- `Semaphore::Semaphore(debugName, initialValue)`. -/
def new (initialValue : Int) : Semaphore := ⟨int32 initialValue, []⟩

/-- One pass of `Semaphore::P()` by `currentThread`: the semaphore afterwards, and whether the
    thread got through (`false`: it is asleep on `queue`). -/
def P (sem : Semaphore) (currentThread : Tid) : Semaphore × Bool :=
  if sem.value = 0 then ({ sem with queue := sem.queue ++ [currentThread] }, false)
  else ({ sem with value := int32 (sem.value - 1) }, true)

/-- `Semaphore::V()`: the semaphore afterwards, and the thread to be made ready. -/
def V (sem : Semaphore) : Semaphore × Option Tid :=
  ({ value := int32 (sem.value + 1), queue := sem.queue.tail }, sem.queue.head?)

end Semaphore

/-- The history of a semaphore: its initial value, the completed `P` and `V`, and the threads that
    a `V` made ready and that have not re-checked the `while` condition yet. -/
structure SemLog where
  initial : Int
  completedP : Nat
  completedV : Nat
  woken : List Tid

namespace SemLog

/-- No `P` and no `V` so far. -/
def new (initialValue : Int) : SemLog := ⟨initialValue, 0, 0, []⟩

/-- The number that `value` stands for. -/
def count (log : SemLog) : Int := log.initial + log.completedV - log.completedP

/-- `t` made the `while` test of `P` on `sem`, and completed `P` if it got through. -/
def afterP (log : SemLog) (sem : Semaphore) (t : Tid) : SemLog :=
  { log with
    completedP := if (sem.P t).2 then log.completedP + 1 else log.completedP
    woken := log.woken.erase t }

/-- A `V` on `sem` was completed. -/
def afterV (log : SemLog) (sem : Semaphore) : SemLog :=
  { log with
    completedV := log.completedV + 1
    woken := log.woken ++ sem.V.2.toList }

end SemLog

/-! ## `P` and `V`, case by case -/

theorem Semaphore.P_zero {sem : Semaphore} (h : sem.value = 0) (t : Tid) :
    sem.P t = ({ sem with queue := sem.queue ++ [t] }, false) := if_pos h

theorem Semaphore.P_pos {sem : Semaphore} (h : sem.value ≠ 0) (t : Tid) :
    sem.P t = ({ sem with value := int32 (sem.value - 1) }, true) := if_neg h

@[simp] theorem Semaphore.V_value (sem : Semaphore) : sem.V.1.value = int32 (sem.value + 1) := rfl
@[simp] theorem Semaphore.V_queue (sem : Semaphore) : sem.V.1.queue = sem.queue.tail := rfl
@[simp] theorem Semaphore.V_woken (sem : Semaphore) : sem.V.2 = sem.queue.head? := rfl

@[simp] theorem SemLog.afterP_initial (log : SemLog) (sem : Semaphore) (t : Tid) :
    (log.afterP sem t).initial = log.initial := rfl
@[simp] theorem SemLog.afterP_woken (log : SemLog) (sem : Semaphore) (t : Tid) :
    (log.afterP sem t).woken = log.woken.erase t := rfl
@[simp] theorem SemLog.afterV_initial (log : SemLog) (sem : Semaphore) :
    (log.afterV sem).initial = log.initial := rfl
@[simp] theorem SemLog.afterV_woken (log : SemLog) (sem : Semaphore) :
    (log.afterV sem).woken = log.woken ++ sem.queue.head?.toList := rfl

@[simp] theorem SemLog.count_new (v : Int) : (SemLog.new v).count = v := by
  simp [SemLog.count, SemLog.new]

theorem SemLog.count_afterP_zero (log : SemLog) {sem : Semaphore} (h : sem.value = 0) (t : Tid) :
    (log.afterP sem t).count = log.count := by
  simp [SemLog.count, SemLog.afterP, Semaphore.P_zero h]

theorem SemLog.count_afterP_pos (log : SemLog) {sem : Semaphore} (h : sem.value ≠ 0) (t : Tid) :
    (log.afterP sem t).count = log.count - 1 := by
  simp only [SemLog.count, SemLog.afterP, Semaphore.P_pos h, if_true]
  omega

@[simp] theorem SemLog.count_afterV (log : SemLog) (sem : Semaphore) :
    (log.afterV sem).count = log.count + 1 := by
  simp only [SemLog.count, SemLog.afterV]
  omega

/-! ## The value and the number it stands for -/

/-- The `while` test keeps the value equal to the count, up to the wrap. -/
theorem value_P {sem : Semaphore} {log : SemLog} (h : sem.value = int32 log.count) (t : Tid) :
    (sem.P t).1.value = int32 (log.afterP sem t).count := by
  by_cases hv : sem.value = 0
  · rw [Semaphore.P_zero hv, log.count_afterP_zero hv]
    exact h
  · rw [Semaphore.P_pos hv, log.count_afterP_pos hv, h, Int.sub_eq_add_neg, int32_add, ← Int.sub_eq_add_neg]

/-- So does `V`. -/
theorem value_V {sem : Semaphore} {log : SemLog} (h : sem.value = int32 log.count) :
    sem.V.1.value = int32 (log.afterV sem).count := by
  rw [Semaphore.V_value, SemLog.count_afterV, h, int32_add]

/-! ## The counting invariant and the no-lost-wakeup invariant -/

/-- What `P` and `V` keep, while the count is below 2^31: the value is not negative, it is the initial
    value plus the completed `V` minus the completed `P`, and — while somebody waits — it is no more than
    what the woken threads will take.  The last clause is NOT true with an empty queue: there the value is
    simply free. -/
structure SemOk (sem : Semaphore) (log : SemLog) : Prop where
  nonneg : 0 ≤ sem.value
  count : sem.value = log.count
  noLost : sem.queue ≠ [] → sem.value ≤ log.woken.length

theorem SemOk.new {v : Int} (hv : 0 ≤ v) (hint : v < 2 ^ 31) : SemOk (Semaphore.new v) (SemLog.new v) := by
  have hvalue : int32 v = v := int32_of_range (by omega) hint
  refine ⟨?_, ?_, fun h => absurd rfl h⟩
  · show 0 ≤ int32 v
    omega
  · rw [SemLog.count_new]
    exact hvalue

/-- The `while` test keeps `SemOk`.  Asleep: the value is zero, so nothing can be lost.  Through:
    the value drops by one and at most one woken thread is gone (a thread that barges in was never
    one of the woken, which only helps). -/
theorem SemOk.P {sem : Semaphore} {log : SemLog} (h : SemOk sem log) (hint : sem.value < 2 ^ 31) (t : Tid) :
    SemOk (sem.P t).1 (log.afterP sem t) := by
  have hnn := h.nonneg
  have hcount := h.count
  by_cases hv : sem.value = 0
  · rw [Semaphore.P_zero hv]
    refine ⟨hnn, ?_, fun _ => ?_⟩
    · rw [log.count_afterP_zero hv]
      exact hcount
    · show sem.value ≤ _
      omega
  · have hless : int32 (sem.value - 1) = sem.value - 1 := int32_of_range (by omega) (by omega)
    rw [Semaphore.P_pos hv, hless]
    refine ⟨?_, ?_, fun hq => ?_⟩
    · show (0 : Int) ≤ sem.value - 1
      omega
    · rw [log.count_afterP_pos hv, hcount]
    · have hwoken := h.noLost hq
      have hlen : log.woken.length ≤ (log.woken.erase t).length + 1 := by
        rw [List.length_erase]
        split <;> omega
      show sem.value - 1 ≤ _
      rw [SemLog.afterP_woken]
      omega

/-- `V` keeps `SemOk`, if the count stays below 2^31: with a waiter, the one unit it adds comes with one
    more woken thread. -/
theorem SemOk.V {sem : Semaphore} {log : SemLog} (h : SemOk sem log) (hint : (log.afterV sem).count < 2 ^ 31) :
    SemOk sem.V.1 (log.afterV sem) := by
  have hnn := h.nonneg
  have hcount := h.count
  rw [SemLog.count_afterV] at hint
  have hmore : sem.V.1.value = sem.value + 1 := by
    rw [Semaphore.V_value]
    exact int32_of_range (by omega) (by omega)
  refine ⟨by omega, ?_, ?_⟩
  · rw [hmore, SemLog.count_afterV, hcount]
  · rw [Semaphore.V_queue, hmore, SemLog.afterV_woken]
    intro hq
    cases hqueue : sem.queue with
    | nil => rw [hqueue] at hq; exact absurd rfl hq
    | cons u rest =>
      have hwoken := h.noLost (by rw [hqueue]; exact List.cons_ne_nil u rest)
      simp only [List.head?_cons, Option.toList_some, List.length_append, List.length_cons,
        List.length_nil]
      push_cast
      omega

end Nachos
