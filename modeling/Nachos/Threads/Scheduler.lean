/-
  `threads/scheduler.cc` — the three ready queues.

  The scheduler keeps one FIFO list per priority.  `ReadyToRun` appends a thread to the list of its
  priority, `FindNextToRun` takes the head of the highest non-empty list, and `ChangeQueuePriority`
  — called by `Lock::Acquire` to donate a priority to the lock holder `th` — is meant to move `th`
  from its list to another one.  It rotates the list: remove the head (`threadh`), append it, and keep
  removing and appending until `threadh` comes round again, taking `th` out on the way.

  When `threadh` does come round it has just been REMOVED, and the loop ends without putting it
  back.  So the move is right only when `th` is the head to begin with (`changeQueuePriority_iff`): in
  every other case the first thread of the list is lost, and with an empty list the NULL head is
  followed for its name.
-/
import Mathlib.Data.List.Nodup
import Mathlib.Logic.Function.Basic
import Nachos.Threads.Semaphore

namespace Nachos

/-! ## The queues and their operations -/

/-- `Scheduler::MaxPriority`. -/
def maxPriority : Nat := 3

/-- `Scheduler::readyListP`, by priority (`0 .. maxPriority - 1` are in use). -/
abbrev ReadyLists := Nat → List Tid

namespace ReadyLists

/-- `Scheduler::Scheduler()`. -/
def empty : ReadyLists := fun _ => []

/-- `Scheduler::ReadyToRun(thread)`, the queue part: append to the list of the thread's priority. -/
def readyToRun (q : ReadyLists) (thread : Tid) (pi : Nat) : ReadyLists :=
  Function.update q pi (q pi ++ [thread])

/-- `while (p > 0 && readyListP[p]->IsEmpty()) p--`. -/
def topPriority (q : ReadyLists) : Nat → Nat
  | 0 => 0
  | p + 1 => if (q (p + 1)).isEmpty then topPriority q p else p + 1

/-- `Scheduler::FindNextToRun()`: the thread found (`none` is NULL), and the queues without it. -/
def findNextToRun (q : ReadyLists) : Option Tid × ReadyLists :=
  let p := q.topPriority (maxPriority - 1)
  ((q p).head?, Function.update q p (q p).tail)

/-- `while ((thread1 = readyListP[i]->Remove()) != threadh)` of `ChangeQueuePriority`; the first
    argument bounds the iterations. -/
def rotate (th threadh : Tid) (i priority : Nat) : Nat → ReadyLists → Option ReadyLists
  | 0, _ => none
  | n + 1, q =>
    match q i with
    -- `Remove` gives NULL, which is appended and removed again for ever
    | [] => none
    | thread1 :: rest =>
      let q' := Function.update q i rest
      if thread1 = threadh then some q'
      else if thread1 = th then
        rotate th threadh i priority n (Function.update q' priority (th :: q' priority))
      else rotate th threadh i priority n (Function.update q' i (q' i ++ [thread1]))

/-- `Scheduler::ChangeQueuePriority(th, priority)`; `none`: the code does not get to its end. -/
def changeQueuePriority (q : ReadyLists) (getPriority : Tid → Nat) (th : Tid) (priority : Nat) :
    Option ReadyLists :=
  let i := getPriority th
  match q i with
  -- `threadh` is NULL, and `threadh->getName()` follows it
  | [] => none
  | threadh :: rest =>
    let q' := Function.update q i rest
    if threadh = th then some (Function.update q' priority (th :: q' priority))
    else
      rotate th threadh i priority ((q i).length + 1) (Function.update q' i (q' i ++ [threadh]))

/-! ## `FindNextToRun` takes the head of the highest non-empty queue -/

theorem topPriority_le (q : ReadyLists) : ∀ n, q.topPriority n ≤ n := by
  intro n
  induction n with
  | zero => exact Nat.le_refl 0
  | succ n ih =>
    unfold topPriority
    split
    · omega
    · exact Nat.le_refl _

theorem topPriority_above (q : ReadyLists) :
    ∀ n j, q.topPriority n < j → j ≤ n → q j = [] := by
  intro n j hlt hle
  induction n with
  | zero => omega
  | succ n ih =>
    unfold topPriority at hlt
    split at hlt
    · rename_i hempty
      rcases Nat.lt_or_eq_of_le hle with hj | hj
      · exact ih hlt (by omega)
      · subst hj
        exact List.isEmpty_iff.mp hempty
    · omega

/-- What `FindNextToRun` returns is the head of one queue; the other queues are untouched and the
    queues of higher priority are empty. -/
theorem findNextToRun_some {q q' : ReadyLists} {t : Tid} (h : q.findNextToRun = (some t, q')) :
    ∃ i, i < maxPriority ∧ q i = t :: q' i ∧ (∀ j, j ≠ i → q' j = q j) ∧
      ∀ j, i < j → j < maxPriority → q j = [] := by
  have hle := topPriority_le q (maxPriority - 1)
  obtain ⟨hhead, hq'⟩ := Prod.mk.inj h
  refine ⟨q.topPriority (maxPriority - 1), by unfold maxPriority at *; omega, ?_, ?_, ?_⟩
  · rw [← hq', Function.update_self]
    cases hq : q (q.topPriority (maxPriority - 1)) with
    | nil => rw [hq] at hhead; nomatch hhead
    | cons u rest =>
      rw [hq] at hhead
      rw [← Option.some.inj hhead, List.tail_cons]
  · intro j hj
    rw [← hq', Function.update_of_ne hj]
  · intro j hij hj
    exact topPriority_above q _ j hij (by omega)

/-- `FindNextToRun` returns NULL only if all queues are empty. -/
theorem findNextToRun_none {q q' : ReadyLists} (h : q.findNextToRun = (none, q')) :
    ∀ i, i < maxPriority → q i = [] := by
  intro i hi
  have hhead : (q (q.topPriority (maxPriority - 1))).head? = none := (Prod.mk.inj h).1
  rcases Nat.lt_trichotomy i (q.topPriority (maxPriority - 1)) with hlt | heq | hgt
  · -- the loop stops above priority 0 only at a list that is not empty
    exfalso
    have hstop : ∀ n, i < q.topPriority n → q (q.topPriority n) ≠ [] := by
      intro n
      induction n with
      | zero =>
        intro h0
        exact absurd h0 (Nat.not_lt_zero i)
      | succ n ih =>
        unfold topPriority
        split
        · exact ih
        · rename_i hne
          intro _ hnil
          rw [hnil] at hne
          exact hne rfl
    exact hstop _ hlt (List.head?_eq_none_iff.mp hhead)
  · rw [heq]
    exact List.head?_eq_none_iff.mp hhead
  · exact topPriority_above q _ i hgt (by omega)

/-! ## What `ChangeQueuePriority` really does -/

/-- **The rotation.**  While `threadh` is still to come, behind `xs`: every `th` in `xs` goes to the
    front of the list of the new priority, everything else in `xs` goes round to the end, and
    `threadh` is dropped.  Induction on `xs`, the part of the list not rotated yet. -/
theorem rotate_spec {th threadh : Tid} {i p : Nat} (hip : i ≠ p) :
    ∀ (xs ys : List Tid) (q : ReadyLists) (n : Nat), q i = xs ++ threadh :: ys → threadh ∉ xs →
      xs.length < n → rotate th threadh i p n q
        = some (Function.update (Function.update q i (ys ++ xs.filter (· ≠ th))) p
            (List.replicate (xs.count th) th ++ q p)) := by
  intro xs ys q n hq hnot hn
  -- every round takes one thread from the front of list `i`
  induction xs generalizing ys q n with
  | nil =>
    obtain ⟨n, rfl⟩ : ∃ m, n = m + 1 := ⟨n - 1, by rw [List.length_nil] at hn; omega⟩
    unfold rotate
    rw [hq]
    simp only [List.nil_append, if_true, List.filter_nil, List.append_nil, List.count_nil,
      List.replicate_zero]
    congr 1
    funext j
    by_cases hj : j = p
    · subst hj
      simp [Ne.symm hip]
    · simp [hj]
  | cons x xs ih =>
    obtain ⟨n, rfl⟩ : ∃ m, n = m + 1 := ⟨n - 1, by omega⟩
    have hx : x ≠ threadh := fun h => hnot (h ▸ List.mem_cons_self)
    have hxs : threadh ∉ xs := fun h => hnot (List.mem_cons_of_mem x h)
    have hlen : xs.length < n := by
      rw [List.length_cons] at hn
      omega
    unfold rotate
    rw [hq]
    simp only [List.cons_append, if_neg hx]
    by_cases hth : x = th
    · -- `th` itself: out of this list, to the front of the other
      subst hth
      rw [if_pos rfl, ih ys _ n (by simp [hip]) hxs hlen]
      congr 1
      funext j
      by_cases hj : j = p
      · subst hj
        simp [Ne.symm hip, List.replicate_succ', List.append_assoc]
      · by_cases hji : j = i
        · subst hji
          simp [hip]
        · simp [hj, hji]
    · rw [if_neg hth, ih (ys ++ [x]) _ n (by simp) hxs hlen]
      congr 1
      funext j
      by_cases hj : j = p
      · subst hj
        simp [Ne.symm hip, hth]
      · by_cases hji : j = i
        · subst hji
          simp [hip, hth]
        · simp [hj, hji]

/-- `th` at the head: it is moved to the front of the other list, and that is all. -/
theorem changeQueuePriority_head {q : ReadyLists} {prio : Tid → Nat} {th : Tid} {p : Nat}
    {rest : List Tid} (hip : prio th ≠ p) (hq : q (prio th) = th :: rest) :
    q.changeQueuePriority prio th p
      = some (Function.update (Function.update q (prio th) rest) p (th :: q p)) := by
  unfold changeQueuePriority
  simp only [hq, if_true]
  rw [Function.update_of_ne (Ne.symm hip)]

/-- Another thread at the head: `th` is moved if it is there, and the head is GONE. -/
theorem changeQueuePriority_notHead {q : ReadyLists} {prio : Tid → Nat} {th threadh : Tid} {p : Nat}
    {rest : List Tid} (hip : prio th ≠ p) (hq : q (prio th) = threadh :: rest)
    (hne : threadh ≠ th) (hnot : threadh ∉ rest) :
    q.changeQueuePriority prio th p
      = some (Function.update (Function.update q (prio th) (rest.filter (· ≠ th))) p
          (List.replicate (rest.count th) th ++ q p)) := by
  unfold changeQueuePriority
  simp only [hq, if_neg hne]
  rw [rotate_spec hip rest [] _ _ (by simp) hnot (by rw [List.length_cons]; omega)]
  congr 1
  funext j
  by_cases hj : j = p
  · subst hj
    simp [Ne.symm hip]
  · by_cases hji : j = prio th
    · subst hji
      simp [hj]
    · simp [hj, hji]

/-! ## When it is right -/

/-- The state of the ready queues the scheduler relies on: every thread is on the queue of its
    current priority, and on it once (so it is on at most one queue). -/
structure Ok (q : ReadyLists) (prio : Tid → Nat) : Prop where
  prio_eq : ∀ i t, t ∈ q i → prio t = i
  nodup : ∀ i, (q i).Nodup

/-- A list changes, and with it the priority of `th`: the threads on the new list have its priority. -/
theorem Ok.update {q : ReadyLists} {prio prio' : Tid → Nat} (h : q.Ok prio) {i : Nat} {ts : List Tid}
    (hlist : ∀ t ∈ ts, prio' t = i) (hnodup : ts.Nodup)
    (hothers : ∀ j, j ≠ i → ∀ t ∈ q j, prio' t = j) : Ok (Function.update q i ts) prio' := by
  refine ⟨fun j t ht => ?_, fun j => ?_⟩
  · by_cases hji : j = i
    · rw [hji, Function.update_self] at ht
      rw [hji]
      exact hlist t ht
    · rw [Function.update_of_ne hji] at ht
      exact hothers j hji t ht
  · by_cases hji : j = i
    · rw [hji, Function.update_self]
      exact hnodup
    · rw [Function.update_of_ne hji]
      exact h.nodup j

/-- **`ChangeQueuePriority` may lose a thread, but what is on the queues is in order**: every thread is on the
    queue of its priority, that of `th` being the new one, and was on a queue before. -/
theorem Ok.changeQueuePriority {q q' : ReadyLists} {prio : Tid → Nat} (h : q.Ok prio) {th : Tid} {p : Nat}
    (hip : prio th ≠ p) (hq' : q.changeQueuePriority prio th p = some q') :
    q'.Ok (Function.update prio th p) ∧ ∀ j, ∀ t ∈ q' j, ∃ i, t ∈ q i := by
  -- what is left of the queue of `th`, and what goes to the front of the new one
  obtain ⟨rest, moved, hrest, hsub, hmoved, hcount, rfl⟩ : ∃ rest moved : List Tid,
      (∀ t ∈ rest, t ∈ q (prio th) ∧ t ≠ th) ∧ rest.Sublist (q (prio th)) ∧
      (∀ t ∈ moved, t = th ∧ th ∈ q (prio th)) ∧ moved.Nodup ∧
      q' = Function.update (Function.update q (prio th) rest) p (moved ++ q p) := by
    cases hq : q (prio th) with
    | nil =>
      unfold ReadyLists.changeQueuePriority at hq'
      simp only [hq] at hq'
      cases hq'
    | cons threadh rest =>
      have hnodup := h.nodup (prio th)
      rw [hq] at hnodup
      obtain ⟨hnot, hnodup⟩ := List.nodup_cons.mp hnodup
      by_cases hth : threadh = th
      · subst hth
        rw [changeQueuePriority_head hip hq] at hq'
        refine ⟨rest, [threadh], fun t ht => ⟨List.mem_cons_of_mem _ ht, ?_⟩, List.sublist_cons_self _ _,
          fun t ht => ⟨List.mem_singleton.mp ht, List.mem_cons_self⟩, List.nodup_singleton _,
          (Option.some.inj hq').symm⟩
        rintro rfl
        exact hnot ht
      · rw [changeQueuePriority_notHead hip hq hth hnot] at hq'
        refine ⟨rest.filter (· ≠ th), List.replicate (rest.count th) th, fun t ht => ?_,
          List.filter_sublist.trans (List.sublist_cons_self _ _), fun t ht => ?_, ?_,
          (Option.some.inj hq').symm⟩
        · obtain ⟨hmem, hne⟩ := List.mem_filter.mp ht
          exact ⟨List.mem_cons_of_mem _ hmem, of_decide_eq_true hne⟩
        · obtain ⟨hpos, rfl⟩ := List.mem_replicate.mp ht
          exact ⟨rfl, List.mem_cons_of_mem _ (List.count_pos_iff.mp (Nat.pos_of_ne_zero hpos))⟩
        · exact List.nodup_replicate.mpr (List.nodup_iff_count_le_one.mp hnodup th)
  have hkeep : ∀ j, j ≠ prio th → ∀ t ∈ q j, Function.update prio th p t = j := by
    intro j hj t ht
    rw [Function.update_of_ne, h.prio_eq j t ht]
    rintro rfl
    exact hj (h.prio_eq j t ht).symm
  have hlower : Ok (Function.update q (prio th) rest) (Function.update prio th p) := by
    apply h.update
    · intro t ht
      obtain ⟨hmem, hne⟩ := hrest t ht
      rw [Function.update_of_ne hne]
      exact h.prio_eq _ t hmem
    · exact (h.nodup _).sublist hsub
    · exact hkeep
  refine ⟨hlower.update ?_ ?_ ?_, ?_⟩
  · intro t ht
    rcases List.mem_append.mp ht with ht | ht
    · rw [(hmoved t ht).1, Function.update_self]
    · exact hkeep p (Ne.symm hip) t ht
  · refine List.nodup_append.mpr ⟨hcount, h.nodup p, fun t ht u hu heq => hip ?_⟩
    rw [← (hmoved t ht).1, heq]
    exact h.prio_eq p u hu
  · intro j hj t ht
    exact hlower.prio_eq j t ht
  · intro j t ht
    by_cases hjp : j = p
    · rw [hjp, Function.update_self] at ht
      rcases List.mem_append.mp ht with ht | ht
      · rw [(hmoved t ht).1]
        exact ⟨_, (hmoved t ht).2⟩
      · exact ⟨p, ht⟩
    · rw [Function.update_of_ne hjp] at ht
      by_cases hji : j = prio th
      · rw [hji, Function.update_self] at ht
        exact ⟨_, (hrest t ht).1⟩
      · rw [Function.update_of_ne hji] at ht
        exact ⟨j, ht⟩

/-- The threads over all queues. -/
def all (q : ReadyLists) : List Tid := q 0 ++ q 1 ++ q 2

/-- What a change of `th`'s queue to `p` has to keep: no ready thread is lost or duplicated, `th` is
    on queue `p` exactly if it was ready, and the other threads are in the same order. -/
structure Moved (q q' : ReadyLists) (th : Tid) (p : Nat) : Prop where
  perm : q'.all.Perm q.all
  onNew : th ∈ q' p ↔ th ∈ q.all
  order : ∀ i, i < maxPriority → (q' i).filter (· ≠ th) = (q i).filter (· ≠ th)

theorem mem_all {q : ReadyLists} {t : Tid} : t ∈ q.all ↔ ∃ i, i < maxPriority ∧ t ∈ q i := by
  unfold all maxPriority
  simp only [List.mem_append]
  constructor
  · rintro ((h | h) | h)
    · exact ⟨0, by omega, h⟩
    · exact ⟨1, by omega, h⟩
    · exact ⟨2, by omega, h⟩
  · rintro ⟨i, hi, h⟩
    rcases (by omega : i = 0 ∨ i = 1 ∨ i = 2) with rfl | rfl | rfl
    · exact Or.inl (Or.inl h)
    · exact Or.inl (Or.inr h)
    · exact Or.inr h

/-- Moving the head of one queue to the front of a higher one is a permutation of the threads.  The
    three queue indices are numbers, so this is a plain case split. -/
theorem perm_all_move {q : ReadyLists} {th : Tid} {rest : List Tid} {i p : Nat} (hip : i < p)
    (hp : p < maxPriority) (hq : q i = th :: rest) :
    (all (Function.update (Function.update q i rest) p (th :: q p))).Perm q.all := by
  unfold maxPriority at hp
  rcases (by omega : (i = 0 ∧ p = 1) ∨ (i = 0 ∧ p = 2) ∨ (i = 1 ∧ p = 2)) with
    ⟨rfl, rfl⟩ | ⟨rfl, rfl⟩ | ⟨rfl, rfl⟩
  · simp [all, hq]
  · have h : (rest ++ q 1 ++ th :: q 2).Perm (th :: (rest ++ q 1 ++ q 2)) := List.perm_middle
    simpa [all, hq] using h
  · have h : (rest ++ th :: q 2).Perm (th :: (rest ++ q 2)) := List.perm_middle
    simpa [all, hq] using h.append_left (q 0)

/-- **`ChangeQueuePriority` is right exactly when the lock holder heads its queue.**  For every state
    of the ready queues, every `th` (ready or not) and every new priority `p` that `Lock::Acquire`
    can ask for (it calls only with a priority above `th`'s): the call comes to its end having moved
    `th` and nothing else IFF `th` is the first thread of the queue of its priority. -/
theorem changeQueuePriority_iff {q : ReadyLists} {prio : Tid → Nat} (hok : q.Ok prio) (th : Tid)
    (p : Nat) (hlt : prio th < p) (hp : p < maxPriority) :
    (∃ q', q.changeQueuePriority prio th p = some q' ∧ Moved q q' th p) ↔
      (q (prio th)).head? = some th := by
  have hip : prio th ≠ p := by omega
  constructor
  · rintro ⟨q', hq', hmoved⟩
    cases hq : q (prio th) with
    | nil =>
      unfold changeQueuePriority at hq'
      simp only [hq] at hq'
      nomatch hq'
    | cons threadh rest =>
      by_cases hth : threadh = th
      · rw [hth]; rfl
      · -- the head is on its queue before the call, and on it no more afterwards
        exfalso
        have hnodup := hok.nodup (prio th)
        rw [hq] at hnodup
        have hnot : threadh ∉ rest := (List.nodup_cons.mp hnodup).1
        rw [changeQueuePriority_notHead hip hq hth hnot] at hq'
        obtain rfl := Option.some.inj hq'
        have horder := hmoved.order (prio th) (by omega)
        rw [Function.update_of_ne hip, Function.update_self, hq] at horder
        have hmem : threadh ∈ (threadh :: rest).filter (· ≠ th) :=
          List.mem_filter.mpr ⟨List.mem_cons_self, by simpa using hth⟩
        rw [← horder] at hmem
        exact hnot (List.mem_of_mem_filter (List.mem_of_mem_filter hmem))
  · intro hhead
    cases hq : q (prio th) with
    | nil => rw [hq] at hhead; nomatch hhead
    | cons u rest =>
      rw [hq] at hhead
      obtain rfl : u = th := Option.some.inj hhead
      refine ⟨_, changeQueuePriority_head hip hq, perm_all_move hlt hp hq, ?_, ?_⟩
      · rw [Function.update_self]
        refine ⟨fun _ => mem_all.mpr ⟨prio u, by omega, ?_⟩, fun _ => List.mem_cons_self⟩
        rw [hq]
        exact List.mem_cons_self
      · intro i hi
        by_cases hi1 : i = p
        · subst hi1
          simp
        · rw [Function.update_of_ne hi1]
          by_cases hi2 : i = prio u
          · subst hi2
            rw [Function.update_self, hq]
            simp
          · rw [Function.update_of_ne hi2]

/-- Three ready threads of priority 0, in the order 1, 2, 3. -/
def threeReady : ReadyLists := fun i => if i = 0 then [1, 2, 3] else []

theorem threeReady_ok : threeReady.Ok fun _ => 0 where
  prio_eq i t h := by
    unfold threeReady at h
    split at h
    · rename_i hi
      exact hi.symm
    · exact absurd h List.not_mem_nil
  nodup i := by
    unfold threeReady
    split
    · decide
    · exact List.nodup_nil

/-- The head of the queue holds the lock: the condition is met. -/
theorem changeQueuePriority_threeReady_head :
    (threeReady 0).head? = some 1 ∧
    ∃ q', threeReady.changeQueuePriority (fun _ => 0) 1 2 = some q' ∧ Moved threeReady q' 1 2 :=
  ⟨rfl, (changeQueuePriority_iff threeReady_ok 1 2 (by decide) (by decide)).mpr rfl⟩

/-- Thread 2 holds the lock, and a thread of priority 2 asks for it: thread 1 is on no queue
    afterwards. -/
theorem changeQueuePriority_loses_head :
    ¬ ∀ (q : ReadyLists) (prio : Tid → Nat) (th : Tid) (p : Nat), q.Ok prio → prio th < p →
        p < maxPriority →
        ∃ q', q.changeQueuePriority prio th p = some q' ∧ Moved q q' th p := by
  intro h
  obtain ⟨q', hq', hmoved⟩ := h threeReady (fun _ => 0) 2 2 threeReady_ok (by decide) (by decide)
  have hperm := hmoved.perm
  rw [changeQueuePriority_notHead (by decide) (show threeReady 0 = 1 :: [2, 3] from rfl) (by decide)
    (by decide)] at hq'
  obtain rfl := Option.some.inj hq'
  revert hperm
  decide

end ReadyLists

end Nachos
