/-
  One processor for many threads, against one processor for each.

  A **context** is what a processor holds besides the memory: its registers and the place in the code.
  Threads share one memory of cells; each has cells of its own, where its context lies while another
  thread runs, and where its stack is.  `switch` saves the context of the running thread in its cells
  and takes the context of another from that one's.

  `one` is the machine with ONE processor.  `many` is what it is for: every thread has a processor of
  its own, that of a thread that is not running just stands still, and a call of `switch` does nothing
  but return and let another processor go on.  `Lawful` says what the code has to do at a SINGLE call;
  from it follows that every step of the one processor is the SAME step of the many (`view_step`), so what
  it reaches they reach (`reach_many`), and that every call of `switch` goes on with the other thread where
  that one stopped and leaves the caller where a bare return would (`switch_goes_on`).

  The rules for memory are those of separate cells: the running thread may do as it likes with every
  cell but those of the other threads.
-/
import Mathlib.Data.Set.Basic
import Nachos.Lib.Lts

namespace Nachos

/-- A way to switch between threads `θ` with contexts `κ`, in a memory of cells `ι` that hold `β`; a
    thread is created from an `α`. -/
structure Switcher (θ κ ι β α : Type) where
  /-- The cells of a thread. -/
  own : θ → Set ι
  /-- The context that lies in the cells of a thread. -/
  saved : (ι → β) → θ → κ
  /-- The cells of a thread that is not running are in order. -/
  sound : (ι → β) → θ → Prop
  /-- The running thread, the first one, is about to switch to the second. -/
  entry : θ → θ → κ → (ι → β) → Prop
  /-- The code of `switch`. -/
  run : κ → (ι → β) → Option (κ × (ι → β))
  /-- The context after a call of a function that returns at once. -/
  back : κ → (ι → β) → κ
  /-- The cells a switch from one thread to another may change. -/
  frame : θ → θ → (ι → β) → Set ι
  /-- The creation of a thread. -/
  create : θ → α → (ι → β) → (ι → β)
  /-- The context a new thread starts with. -/
  fresh : θ → α → (ι → β) → κ

namespace Switcher

variable {θ κ ι β α : Type}

/-- What the code has to do at one call. -/
structure Lawful (S : Switcher θ κ ι β α) : Prop where
  own_disjoint : ∀ {t u : θ}, t ≠ u → ∀ i ∈ S.own t, i ∉ S.own u
  /-- The context of a thread is in its own cells. -/
  saved_congr : ∀ {m m' : ι → β} {t : θ}, S.sound m t → (∀ i ∈ S.own t, m' i = m i) →
    S.saved m' t = S.saved m t ∧ S.sound m' t
  /-- `switch` goes on with the saved context of the other thread and saves that of the caller, such as
      it is after the return. -/
  switch : ∀ {c t : θ} {k : κ} {m : ι → β}, c ≠ t → S.entry c t k m → S.sound m t →
    ∃ m', S.run k m = some (S.saved m t, m') ∧ S.saved m' c = S.back k m ∧ S.sound m' c ∧
      ∀ i, i ∉ S.frame c t m → m' i = m i
  frame_apart : ∀ {c t u : θ} {m : ι → β}, S.sound m t → u ≠ c → u ≠ t → ∀ i ∈ S.own u, i ∉ S.frame c t m
  create : ∀ (t : θ) (a : α) (m : ι → β), S.saved (S.create t a m) t = S.fresh t a m ∧
    S.sound (S.create t a m) t ∧ ∀ i, i ∉ S.own t → S.create t a m i = m i

/-! ## The two machines -/

/-- One processor. -/
structure One (θ κ ι β : Type) where
  /-- What the processor holds. -/
  ctx : κ
  mem : ι → β
  /-- The running thread. -/
  cur : θ
  /-- The threads there are. -/
  live : List θ

/-- A processor for each thread. -/
structure Many (θ κ ι β : Type) where
  /-- What the processor of a thread holds; `none` if there is no such thread. -/
  ctx : θ → Option κ
  mem : ι → β
  cur : θ

/-- What happens. -/
inductive Event (θ α : Type) where
  /-- The running thread computes. -/
  | work
  /-- It calls `switch`, to go on with another thread. -/
  | switch (t : θ)
  /-- It creates a thread. -/
  | create (t : θ) (a : α)
  /-- It deletes a thread. -/
  | delete (t : θ)

/-! ## One step -/

/-- The running thread is alive, and the cells of the others are in order. -/
structure Ok (S : Switcher θ κ ι β α) (s : One θ κ ι β) : Prop where
  cur : s.cur ∈ s.live
  sound : ∀ t ∈ s.live, t ≠ s.cur → S.sound s.mem t

section Laws

variable {S : Switcher θ κ ι β α}

/-- What `switch` leaves in memory: the context of the caller, and the others as they were. -/
theorem Lawful.after_switch (hS : S.Lawful) {s : One θ κ ι β} {t : θ} {k : κ} {m : ι → β} (hok : Ok S s)
    (hlive : t ∈ s.live) (hne : s.cur ≠ t) (hentry : S.entry s.cur t s.ctx s.mem)
    (hrun : S.run s.ctx s.mem = some (k, m)) :
    k = S.saved s.mem t ∧ S.saved m s.cur = S.back s.ctx s.mem ∧ S.sound m s.cur ∧
      (∀ i, i ∉ S.frame s.cur t s.mem → m i = s.mem i) ∧
      ∀ u ∈ s.live, u ≠ s.cur → u ≠ t → S.saved m u = S.saved s.mem u ∧ S.sound m u := by
  have hsound := hok.sound t hlive hne.symm
  obtain ⟨m', hrun', hback, hcaller, hframe⟩ := hS.switch hne hentry hsound
  rw [hrun] at hrun'
  obtain ⟨rfl, rfl⟩ := Prod.mk.inj (Option.some.inj hrun')
  refine ⟨rfl, hback, hcaller, hframe, fun u hu hucur hut => ?_⟩
  exact hS.saved_congr (hok.sound u hu hucur) fun i hi =>
    hframe i (hS.frame_apart hsound hucur hut i hi)

/-- What the creation of a thread leaves in memory. -/
theorem Lawful.after_create (hS : S.Lawful) {s : One θ κ ι β} {t : θ} (a : α) (hok : Ok S s)
    (hlive : t ∉ s.live) {u : θ} (hu : u ∈ s.live) (hne : u ≠ s.cur) :
    S.saved (S.create t a s.mem) u = S.saved s.mem u ∧ S.sound (S.create t a s.mem) u := by
  have hut : u ≠ t := fun h => hlive (h ▸ hu)
  exact hS.saved_congr (hok.sound u hu hne) fun i hi =>
    (hS.create t a s.mem).2.2 i (hS.own_disjoint hut i hi)

end Laws

variable [DecidableEq θ] (S : Switcher θ κ ι β α)

/-- The steps of one processor. -/
inductive OneStep (s : One θ κ ι β) : Event θ α → One θ κ ι β → Prop where
  | work (k : κ) (m : ι → β) (hown : ∀ t ∈ s.live, t ≠ s.cur → ∀ i ∈ S.own t, m i = s.mem i) :
      OneStep s .work { s with ctx := k, mem := m }
  | switch {t : θ} {k : κ} {m : ι → β} (hlive : t ∈ s.live) (hne : s.cur ≠ t)
      (hentry : S.entry s.cur t s.ctx s.mem) (hrun : S.run s.ctx s.mem = some (k, m)) :
      OneStep s (.switch t) { s with ctx := k, mem := m, cur := t }
  | create {t : θ} (a : α) (hlive : t ∉ s.live) :
      OneStep s (.create t a) { s with mem := S.create t a s.mem, live := t :: s.live }
  | delete {t : θ} (hne : t ≠ s.cur) :
      OneStep s (.delete t) { s with live := s.live.filter (· ≠ t) }

/-- The steps of many processors: only that of the running thread ever moves. -/
inductive ManyStep (s : Many θ κ ι β) : Event θ α → Many θ κ ι β → Prop where
  | work (k : κ) (m : ι → β) (hown : ∀ t, s.ctx t ≠ none → t ≠ s.cur → ∀ i ∈ S.own t, m i = s.mem i) :
      ManyStep s .work { s with ctx := Function.update s.ctx s.cur (some k), mem := m }
  | switch {t : θ} {k : κ} (m : ι → β) (hlive : s.ctx t ≠ none) (hne : s.cur ≠ t)
      (hctx : s.ctx s.cur = some k) (hentry : S.entry s.cur t k s.mem)
      (hframe : ∀ i, i ∉ S.frame s.cur t s.mem → m i = s.mem i) :
      ManyStep s (.switch t)
        { ctx := Function.update s.ctx s.cur (some (S.back k s.mem)), mem := m, cur := t }
  | create {t : θ} (a : α) (hlive : s.ctx t = none) :
      ManyStep s (.create t a)
        { s with ctx := Function.update s.ctx t (some (S.fresh t a s.mem)), mem := S.create t a s.mem }
  | delete {t : θ} (hne : t ≠ s.cur) :
      ManyStep s (.delete t) { s with ctx := Function.update s.ctx t none }

/-- One processor, from a single thread on. -/
def one : Lts (One θ κ ι β) (Event θ α) where
  init s := s.live = [s.cur]
  step := OneStep S

/-- Many processors, from a single thread on. -/
def many : Lts (Many θ κ ι β) (Event θ α) where
  init s := ∀ t, s.ctx t ≠ none ↔ t = s.cur
  step := ManyStep S

/-- The processor of a thread in the one there is: that of the running thread is the processor itself,
    and those of the others lie in the memory. -/
def One.ctxOf (s : One θ κ ι β) (t : θ) : Option κ :=
  if t = s.cur then some s.ctx else if t ∈ s.live then some (S.saved s.mem t) else none

/-- The many processors in the one. -/
def view (s : One θ κ ι β) : Many θ κ ι β where
  ctx := s.ctxOf S
  mem := s.mem
  cur := s.cur

/-! ## The one does what the many do -/

variable {S}

section Contexts

variable {s : One θ κ ι β} {t : θ}

theorem One.ctxOf_cur (h : t = s.cur) : s.ctxOf S t = some s.ctx := if_pos h

theorem One.ctxOf_live (hne : t ≠ s.cur) (hlive : t ∈ s.live) : s.ctxOf S t = some (S.saved s.mem t) := by
  rw [ctxOf, if_neg hne, if_pos hlive]

theorem One.ctxOf_dead (hne : t ≠ s.cur) (hlive : t ∉ s.live) : s.ctxOf S t = none := by
  rw [ctxOf, if_neg hne, if_neg hlive]

theorem Ok.ctxOf_ne_none (hok : Ok S s) : s.ctxOf S t ≠ none ↔ t ∈ s.live := by
  by_cases hcur : t = s.cur
  · rw [One.ctxOf_cur hcur, hcur]
    simp [hok.cur]
  · by_cases hlive : t ∈ s.live
    · rw [One.ctxOf_live hcur hlive]
      simp [hlive]
    · rw [One.ctxOf_dead hcur hlive]
      simp [hlive]

/-- A thread that is not running has the same context in two states, if it is saved alike. -/
theorem One.ctxOf_congr {s' : One θ κ ι β} (hne : t ≠ s.cur) (hne' : t ≠ s'.cur)
    (hlive : t ∈ s'.live ↔ t ∈ s.live) (hsaved : t ∈ s.live → S.saved s'.mem t = S.saved s.mem t) :
    s'.ctxOf S t = s.ctxOf S t := by
  by_cases ht : t ∈ s.live
  · rw [ctxOf_live hne ht, ctxOf_live hne' (hlive.mpr ht), hsaved ht]
  · rw [ctxOf_dead hne ht, ctxOf_dead hne' fun h => ht (hlive.mp h)]

end Contexts

theorem Lawful.ok_step (hS : S.Lawful) {s s' : One θ κ ι β} {e : Event θ α} (hok : Ok S s)
    (h : OneStep S s e s') : Ok S s' := by
  cases h with
  | work k m hown =>
    exact ⟨hok.cur, fun t ht hne => (hS.saved_congr (hok.sound t ht hne) (hown t ht hne)).2⟩
  | @switch t k m hlive hne hentry hrun =>
    obtain ⟨-, -, hcaller, -, hothers⟩ := hS.after_switch hok hlive hne hentry hrun
    refine ⟨hlive, fun u hu hut => ?_⟩
    by_cases hucur : u = s.cur
    · rw [hucur]
      exact hcaller
    · exact (hothers u hu hucur hut).2
  | @create t a hlive =>
    refine ⟨List.mem_cons_of_mem t hok.cur, fun u hu hne => ?_⟩
    rcases List.mem_cons.mp hu with rfl | hu
    · exact (hS.create u a s.mem).2.1
    · exact (hS.after_create a hok hlive hu hne).2
  | @delete t hne =>
    refine ⟨List.mem_filter.mpr ⟨hok.cur, by simpa using hne.symm⟩, fun u hu hucur => ?_⟩
    exact hok.sound u (List.mem_filter.mp hu).1 hucur

theorem Lawful.ok_of_reach (hS : S.Lawful) {s : One θ κ ι β} (h : S.one.Reach s) : Ok S s := by
  refine Lts.Reach.invariant (I := Ok S) (fun s hinit => ?_)
    (fun s e s' _ hok hstep => hS.ok_step hok hstep) h
  have hlive : s.live = [s.cur] := hinit
  refine ⟨by rw [hlive]; exact List.mem_singleton_self _, fun t ht hne => ?_⟩
  rw [hlive] at ht
  exact absurd (List.mem_singleton.mp ht) hne

/-- The contexts after `switch`: that of the caller is the one after a bare return, and the others are as they were. -/
theorem Lawful.ctxOf_switch (hS : S.Lawful) {s : One θ κ ι β} {t : θ} {k : κ} {m : ι → β} (hok : Ok S s)
    (hlive : t ∈ s.live) (hne : s.cur ≠ t) (hentry : S.entry s.cur t s.ctx s.mem)
    (hrun : S.run s.ctx s.mem = some (k, m)) :
    One.ctxOf S { s with ctx := k, mem := m, cur := t }
      = Function.update (s.ctxOf S) s.cur (some (S.back s.ctx s.mem)) := by
  obtain ⟨hk, hback, -, -, hothers⟩ := hS.after_switch hok hlive hne hentry hrun
  funext u
  by_cases hucur : u = s.cur
  · rw [hucur, Function.update_self, ← hback]
    exact One.ctxOf_live hne hok.cur
  · rw [Function.update_of_ne hucur]
    by_cases hut : u = t
    · rw [One.ctxOf_cur hut, hut, One.ctxOf_live hne.symm hlive, hk]
    · exact One.ctxOf_congr hucur hut Iff.rfl fun hu => (hothers u hu hucur hut).1

/-- **Every step of the one processor is the same step of the many.** -/
theorem Lawful.view_step (hS : S.Lawful) {s s' : One θ κ ι β} {e : Event θ α} (hok : Ok S s)
    (h : OneStep S s e s') : ManyStep S (S.view s) e (S.view s') := by
  cases h with
  | work k m hown =>
    have hctx : One.ctxOf S { s with ctx := k, mem := m } = Function.update (s.ctxOf S) s.cur (some k) := by
      funext t
      by_cases hcur : t = s.cur
      · rw [hcur, Function.update_self, One.ctxOf_cur rfl]
      · rw [Function.update_of_ne hcur]
        exact One.ctxOf_congr hcur hcur Iff.rfl fun ht =>
          (hS.saved_congr (hok.sound t ht hcur) (hown t ht hcur)).1
    rw [view, view, hctx]
    exact ManyStep.work k m fun t ht hne => hown t (hok.ctxOf_ne_none.mp ht) hne
  | @switch t k m hlive hne hentry hrun =>
    obtain ⟨-, -, -, hframe, -⟩ := hS.after_switch hok hlive hne hentry hrun
    rw [view, view, hS.ctxOf_switch hok hlive hne hentry hrun]
    exact ManyStep.switch m (hok.ctxOf_ne_none.mpr hlive) hne (One.ctxOf_cur rfl) hentry hframe
  | @create t a hlive =>
    have htcur : t ≠ s.cur := fun h => hlive (h ▸ hok.cur)
    have hctx : One.ctxOf S { s with mem := S.create t a s.mem, live := t :: s.live }
        = Function.update (s.ctxOf S) t (some (S.fresh t a s.mem)) := by
      funext u
      by_cases hut : u = t
      · rw [hut, Function.update_self, ← (hS.create t a s.mem).1]
        exact One.ctxOf_live htcur List.mem_cons_self
      · rw [Function.update_of_ne hut]
        by_cases hucur : u = s.cur
        · rw [One.ctxOf_cur (s := s) hucur]
          exact One.ctxOf_cur hucur
        · have hmem : u ∈ t :: s.live ↔ u ∈ s.live := by simp [hut]
          exact One.ctxOf_congr hucur hucur hmem fun hu => (hS.after_create a hok hlive hu hucur).1
    rw [view, view, hctx]
    exact ManyStep.create a (One.ctxOf_dead htcur hlive)
  | @delete t hne =>
    have hctx : One.ctxOf S { s with live := s.live.filter (· ≠ t) } = Function.update (s.ctxOf S) t none := by
      funext u
      by_cases hut : u = t
      · have hgone : t ∉ s.live.filter (· ≠ t) := by simp
        rw [hut, Function.update_self]
        exact One.ctxOf_dead hne hgone
      · rw [Function.update_of_ne hut]
        by_cases hucur : u = s.cur
        · rw [One.ctxOf_cur (s := s) hucur]
          exact One.ctxOf_cur hucur
        · have hmem : u ∈ s.live.filter (· ≠ t) ↔ u ∈ s.live := by simp [hut]
          exact One.ctxOf_congr hucur hucur hmem fun _ => rfl
    rw [view, view, hctx]
    exact ManyStep.delete hne

/-- **One processor does what many do.**  Every state it reaches is, with the contexts read off the
    memory, a state that a processor for each thread reaches. -/
theorem Lawful.reach_many (hS : S.Lawful) {s : One θ κ ι β} (h : S.one.Reach s) :
    S.many.Reach (S.view s) := by
  refine Lts.Reach.simulate S.view (fun s hinit => ?_) (fun s e s' hreach _ hstep => ?_) h
  · intro t
    have hlive : s.live = [s.cur] := hinit
    refine (hS.ok_of_reach (.init hinit)).ctxOf_ne_none.trans ?_
    rw [hlive, List.mem_singleton]
    exact Iff.rfl
  · exact Or.inr ⟨e, hS.view_step (hS.ok_of_reach hreach) hstep⟩

/-- **Every call of `switch` goes on with the other thread**, where that one's own processor stands, and leaves
    the caller as after a bare return. -/
theorem Lawful.switch_goes_on (hS : S.Lawful) {s : One θ κ ι β} (h : S.one.Reach s) {t : θ}
    (hlive : t ∈ s.live) (hne : s.cur ≠ t) (hentry : S.entry s.cur t s.ctx s.mem) :
    ∃ k m, S.run s.ctx s.mem = some (k, m) ∧ (S.view s).ctx t = some k ∧
      (S.view { s with ctx := k, mem := m, cur := t }).ctx
        = Function.update (S.view s).ctx s.cur (some (S.back s.ctx s.mem)) ∧
      ∀ i, i ∉ S.frame s.cur t s.mem → m i = s.mem i := by
  have hok := hS.ok_of_reach h
  obtain ⟨m, hrun, -, -, hframe⟩ := hS.switch hne hentry (hok.sound t hlive hne.symm)
  exact ⟨_, m, hrun, One.ctxOf_live hne.symm hlive, hS.ctxOf_switch hok hlive hne hentry hrun, hframe⟩

end Switcher

end Nachos
