/-
  `Lock` of `threads/synch.cc`: mutual exclusion, for every client and every interleaving.

  `sem` and `thname` are written in separate atomic actions, so ownership and the value of `sem` are
  out of step in two windows: after `sem->P()` and before `thname = currentThread`, and after
  `thname = NULL` and before `sem->V()`.  That is the token protocol of `Nachos.Lib.Token`, with `sem`
  as the token and `thname` as the tag: `token_step` shows that every step of a compiled client is,
  for each lock, a step of the protocol or invisible to it — provided no thread calls `Acquire` on a
  lock it holds — and `lock_exclusion` reads the result off.

  Clients are expected to hold the lock at certain points of their code.  `Disciplined` is the rule
  for that: an annotation of the client's program points with the locks held there, to be checked
  locally, call by call; `Disciplined.held` says that the annotation then holds in every run.
-/
import Nachos.Lib.Token
import Nachos.Threads.Monitor

set_option linter.unusedSectionVars false

namespace Nachos

variable {L C U I Sh Pc : Type} [DecidableEq L] [DecidableEq C] [DecidableEq U]

/-! ## The lock as a token -/

/-- The phase of a thread that is about to return to `r`: at the `sem->P()` of a `Wait` it is on its
    way to the lock of the condition. -/
def Client.retPhase (cl : Client L C U I Sh Pc) (l : L) : Ret C Pc → Phase
  | .waitP c _ _ => if cl.lockOf c = l then .entering else .idle
  | _ => .idle

/-- The phase of a program point with respect to lock `l`. -/
def Client.phase (cl : Client L C U I Sh Pc) (l : L) : MPc L C Pc → Phase
  | .ret r => cl.retPhase l r
  | .acquire l' .setThname _ => if l' = l then .taking else .idle
  | .acquire l' _ _ => if l' = l then .entering else .idle
  | .release l' .test r => if l' = l then .idle else cl.retPhase l r
  | .release l' .semV r => if l' = l then .giving else cl.retPhase l r
  | .wait _ _ => .idle
  | .signal _ r => cl.retPhase l r
  | .signalV _ r => cl.retPhase l r
  | .broadcast _ _ => .idle

/-- The phase of a thread. -/
def Client.ctlPhase (cl : Client L C U I Sh Pc) (l : L) : Ctl (MPc L C Pc) → Phase
  | .atPc pc => cl.phase l pc
  | _ => .idle

/-- The token of lock `l`: `Lock::sem` is the counter and `Lock::thname` the tag. -/
def Client.token (cl : Client L C U I Sh Pc) (l : L) (s : cl.St) : Token Tid where
  free := (s.sem (.lock l)).value
  holders := s.sh.holders l
  tag := s.sh.thname l
  acquired := s.sh.acquired l
  phase t := cl.ctlPhase l (s.ctl t)

/-- **The discipline**: no thread calls `Acquire` on a lock that it holds. -/
def Client.NoReacquire (cl : Client L C U I Sh Pc) (s : cl.St) : Label I → Prop
  | .run t => ∀ pc l k, s.ctl t = .atPc (.ret (.client pc)) → cl.call t pc = .acquire l k →
      t ∉ s.sh.holders l
  | .intr _ => True

section Token

variable {cl : Client L C U I Sh Pc} {l : L} {s s' : cl.St} {t : Tid}

/-- What a step has to leave alone to be invisible to the token. -/
theorem token_eq (hfree : (s'.sem (.lock l)).value = (s.sem (.lock l)).value)
    (hholders : s'.sh.holders l = s.sh.holders l) (htag : s'.sh.thname l = s.sh.thname l)
    (hacquired : s'.sh.acquired l = s.sh.acquired l)
    (hphase : ∀ u, cl.ctlPhase l (s'.ctl u) = cl.ctlPhase l (s.ctl u)) :
    cl.token l s' = cl.token l s := by
  simp only [Client.token, hfree, hholders, htag, hacquired, hphase]

theorem ctlPhase_update (ctl : Tid → Ctl (MPc L C Pc)) (t : Tid) (c : Ctl (MPc L C Pc)) :
    (fun u => cl.ctlPhase l (Function.update ctl t c u))
      = Function.update (fun u => cl.ctlPhase l (ctl u)) t (cl.ctlPhase l c) := by
  funext u
  by_cases hu : u = t
  · subst hu
    simp
  · simp [hu]

/-- A thread that goes to a point of the same phase does not change the phases. -/
theorem ctlPhase_same {ctl : Tid → Ctl (MPc L C Pc)} {c : Ctl (MPc L C Pc)}
    (h : cl.ctlPhase l c = cl.ctlPhase l (ctl t)) (u : Tid) :
    cl.ctlPhase l (Function.update ctl t c u) = cl.ctlPhase l (ctl u) := by
  by_cases hu : u = t
  · subst hu
    rw [Function.update_self, h]
  · rw [Function.update_of_ne hu]

/-- Going to sleep changes no value. -/
theorem semP_value_zero {x y : MSem L U} (hv : (s.sem x).value = 0) :
    ((s.semP t x).sem y).value = (s.sem y).value := by
  by_cases hy : y = x
  · subst hy
    simp [Semaphore.P_zero hv]
  · simp [hy]

/-- A `goto` that keeps the token's data and the phase of the thread is invisible. -/
theorem token_goto_same {sh' : MSh L C Sh} {pc : MPc L C Pc}
    (hfree : (s'.sem (.lock l)).value = (s.sem (.lock l)).value) (hctl : s'.ctl = s.ctl)
    (hholders : sh'.holders l = s.sh.holders l) (htag : sh'.thname l = s.sh.thname l)
    (hacquired : sh'.acquired l = s.sh.acquired l)
    (hphase : cl.phase l pc = cl.ctlPhase l (s.ctl t)) :
    cl.token l (s'.goto t sh' pc) = cl.token l s := by
  refine token_eq hfree hholders htag hacquired ?_
  rw [State.goto_ctl, hctl]
  exact ctlPhase_same hphase

/-- The token after a `goto`. -/
theorem token_goto (sh' : MSh L C Sh) (pc : MPc L C Pc) :
    cl.token l (s.goto t sh' pc) =
      { free := (s.sem (.lock l)).value
        holders := sh'.holders l
        tag := sh'.thname l
        acquired := sh'.acquired l
        phase := Function.update (fun u => cl.ctlPhase l (s.ctl u)) t (cl.phase l pc) } := by
  simp only [Client.token, State.goto_sem, State.goto_sh, State.goto_ctl, ctlPhase_update]
  rfl

theorem donation_next (l : L) (t : Tid) (k : Pc) (prio : Tid → Nat) (sh : MSh L C Sh) :
    ∃ seen, (Client.donation l t k prio sh).next = .acquire l (.semInvV seen) k := by
  unfold Client.donation
  split
  · exact ⟨none, rfl⟩
  · exact ⟨some _, rfl⟩

/-- For the token, `s'` comes after `s` by one action or by none. -/
def Client.TokenNext (cl : Client L C U I Sh Pc) (l : L) (s s' : cl.St) : Prop :=
  cl.token l s' = cl.token l s ∨ ∃ a, Token.Step (cl.token l s) a (cl.token l s')

/-- Calling `Acquire` is entering; the other calls are invisible. -/
theorem tokenNext_call {pc : Pc} {pc' : MPc L C Pc} (hpc : s.ctl t = .atPc (.ret (.client pc)))
    (henters : (cl.call t pc).Enters pc')
    (hno : ∀ l k, cl.call t pc = .acquire l k → t ∉ s.sh.holders l) :
    cl.TokenNext l s (s.goto t s.sh pc') := by
  generalize hcall : cl.call t pc = call at henters
  cases henters with
  | acquire l' k =>
    by_cases hl : l' = l
    · subst hl
      refine Or.inr ⟨.enter t, ?_⟩
      have hphase : cl.phase l' (.acquire l' .test k) = .entering := if_pos rfl
      rw [token_goto, hphase]
      exact .enter (by simp only [Client.token, hpc]; rfl) (hno l' k hcall)
    · refine Or.inl (token_goto_same rfl rfl rfl rfl rfl ?_)
      rw [hpc]
      exact if_neg hl
  | release l' k =>
    refine Or.inl (token_goto_same rfl rfl rfl rfl rfl ?_)
    rw [hpc]
    exact ite_self _
  | wait c k | signal c k | broadcast c k => exact Or.inl (token_goto_same rfl rfl rfl rfl rfl (by rw [hpc]; rfl))

/-- `sem` of a lock is 0 or 1, so its `value--` and `value++` do not wrap around. -/
theorem value_small (hok : TokenOk (cl.token l s)) {v : Int}
    (hv : v = (s.sem (.lock l)).value - 1 ∨ v = (s.sem (.lock l)).value + 1) : int32 v = v := by
  have hnn : 0 ≤ (s.sem (.lock l)).value := hok.nonneg
  have hsum : (s.sem (.lock l)).value + (s.sh.holders l).length = 1 := hok.sum
  exact int32_of_range (by omega) (by omega)

/-- `sem->P()` of `Acquire` passes. -/
theorem tokenNext_take {l' : L} {k : Pc} {seen : Option (Tid × Nat)} (hok : TokenOk (cl.token l s))
    (hpc : s.ctl t = .atPc (.acquire l' (.semP seen) k)) (hv : (s.sem (.lock l')).value ≠ 0) :
    cl.TokenNext l s ((s.semP t (.lock l')).goto t (s.sh.took l' t) (.acquire l' .setThname k)) := by
  by_cases hl : l' = l
  · subst hl
    refine Or.inr ⟨.take t, ?_⟩
    have hphase : cl.phase l' (.acquire l' .setThname k) = .taking := if_pos rfl
    have hfree : ((s.semP t (.lock l')).sem (.lock l')).value = (s.sem (.lock l')).value - 1 := by
      simp only [State.semP_sem, Function.update_self, Semaphore.P_pos hv]
      exact value_small hok (Or.inl rfl)
    have hholders : (s.sh.took l' t).holders l' = s.sh.holders l' ++ [t] := by simp [MSh.took]
    rw [token_goto, hphase, hfree, hholders]
    exact .take (by simp only [Client.token, hpc]; exact if_pos rfl) hv
  · refine Or.inl (token_goto_same ?_ rfl ?_ rfl rfl ?_)
    · simp [Ne.symm hl]
    · simp [MSh.took, Ne.symm hl]
    · rw [hpc]
      exact (if_neg hl).trans (if_neg hl).symm

/-- `thname = currentThread`. -/
theorem tokenNext_own {l' : L} {k : Pc} (hpc : s.ctl t = .atPc (.acquire l' .setThname k)) :
    cl.TokenNext l s (s.goto t (s.sh.owned l' t) (.ret (.client k))) := by
  by_cases hl : l' = l
  · subst hl
    refine Or.inr ⟨.own t, ?_⟩
    have htag : (s.sh.owned l' t).thname l' = some t := by simp [MSh.owned]
    have hacquired : (s.sh.owned l' t).acquired l' = s.sh.acquired l' ++ [t] := by
      simp [MSh.owned]
    rw [token_goto, htag, hacquired]
    exact .own (by simp only [Client.token, hpc]; exact if_pos rfl)
  · refine Or.inl (token_goto_same rfl rfl rfl ?_ ?_ ?_)
    · simp [MSh.owned, Ne.symm hl]
    · simp [MSh.owned, Ne.symm hl]
    · rw [hpc]
      exact (if_neg hl).symm

/-- `Release` clears `thname`. -/
theorem tokenNext_drop {l' : L} {r : Ret C Pc} (hpc : s.ctl t = .atPc (.release l' .test r))
    (hheld : s.sh.isHeldBy l' t) :
    cl.TokenNext l s (s.goto t (s.sh.dropped l' t) (.release l' .semV r)) := by
  by_cases hl : l' = l
  · subst hl
    refine Or.inr ⟨.drop t, ?_⟩
    have hphase : cl.phase l' (.release l' .semV r) = .giving := if_pos rfl
    have htag : (s.sh.dropped l' t).thname l' = none := by simp [MSh.dropped]
    have hacquired : (s.sh.dropped l' t).acquired l' = (s.sh.acquired l').erase t := by
      simp [MSh.dropped]
    rw [token_goto, hphase, htag, hacquired]
    exact .drop (by simp only [Client.token, hpc]; exact if_pos rfl) hheld
  · refine Or.inl (token_goto_same rfl rfl rfl ?_ ?_ ?_)
    · simp [MSh.dropped, Ne.symm hl]
    · simp [MSh.dropped, Ne.symm hl]
    · rw [hpc]
      exact (if_neg hl).trans (if_neg hl).symm

/-- `sem->V()` of `Release`. -/
theorem tokenNext_give {l' : L} {r : Ret C Pc} (hok : TokenOk (cl.token l s))
    (hpc : s.ctl t = .atPc (.release l' .semV r)) :
    cl.TokenNext l s ((s.semV (.lock l')).goto t (s.sh.gave l' t) (.ret r)) := by
  by_cases hl : l' = l
  · subst hl
    have hfree : ((s.semV (.lock l')).sem (.lock l')).value = (s.sem (.lock l')).value + 1 := by
      simp only [State.semV_sem, Function.update_self, Semaphore.V_value]
      exact value_small hok (Or.inr rfl)
    have hholders : (s.sh.gave l' t).holders l' = (s.sh.holders l').erase t := by simp [MSh.gave]
    -- `Wait` goes on to acquire the lock anew, `Release` does not
    have hagain : cl.phase l' (.ret r) = .entering ∨ cl.phase l' (.ret r) = .idle := by
      cases r with
      | waitP c sem k => exact (em (cl.lockOf c = l')).imp (fun h => if_pos h) fun h => if_neg h
      | client k | broadcast c k => exact Or.inr rfl
    have hgiving : (cl.token l' s).phase t = .giving := by
      simp only [Client.token, hpc]
      exact if_pos rfl
    rcases hagain with hphase | hphase
    · refine Or.inr ⟨.give t true, ?_⟩
      rw [token_goto, hphase, hfree, hholders]
      exact .give hgiving
    · refine Or.inr ⟨.give t false, ?_⟩
      rw [token_goto, hphase, hfree, hholders]
      exact .give hgiving
  · refine Or.inl (token_goto_same ?_ rfl ?_ rfl rfl ?_)
    · simp [Ne.symm hl]
    · simp [MSh.gave, Ne.symm hl]
    · rw [hpc]
      exact (if_neg hl).symm

/-- **Every step of a client is a step of the token protocol, or invisible to it.** -/
theorem token_step {lab : Label I} (hok : TokenOk (cl.token l s)) (hno : cl.NoReacquire s lab)
    (h : MStep cl s lab s') : cl.TokenNext l s s' := by
  cases h with
  | block hv => exact Or.inl (token_eq (semP_value_zero hv) rfl rfl rfl fun _ => rfl)
  | @call t pc pc' hpc hentry =>
    exact tokenNext_call hpc (Call.enters_of_entry hentry) fun l k => hno pc l k hpc
  | userP hpc hcall | userV hpc hcall =>
    exact Or.inl (token_goto_same (by simp) rfl rfl rfl rfl (by rw [hpc]; rfl))
  | tau hpc hcall hf => exact Or.inl (token_goto_same rfl rfl rfl rfl rfl (by rw [hpc]; rfl))
  | @fork t pc f a hpc hcall hf hfresh =>
    refine Or.inl (token_eq rfl rfl rfl rfl fun u => ?_)
    have hne : t ≠ a.child := by
      rintro rfl
      rw [hpc] at hfresh
      nomatch hfresh
    rw [ctlPhase_same (by rw [Function.update_of_ne hne, hpc]; rfl) u]
    exact ctlPhase_same (by rw [hfresh]; rfl) u
  | yield hpc hcall => exact Or.inl (token_goto_same rfl rfl rfl rfl rfl (by rw [hpc]; rfl))
  | finish hpc hcall =>
    exact Or.inl (token_eq rfl rfl rfl rfl (ctlPhase_same (by rw [hpc]; rfl)))
  | @reacquire t l' k hpc hheld =>
    by_cases hl : l' = l
    · -- a thread on its way in does not hold the lock, so its name is not on the tag
      subst hl
      refine absurd (hok.tag t hheld).1 (hok.entering t ?_)
      simp only [Client.token, hpc]
      exact if_pos rfl
    · refine Or.inl (token_goto_same rfl rfl rfl rfl ?_ ?_)
      · simp [MSh.reacquired, Ne.symm hl]
      · rw [hpc]
        exact (if_neg hl).symm
  | enter hpc hheld => exact Or.inl (token_goto_same rfl rfl rfl rfl rfl (by rw [hpc]; rfl))
  | semInvP hpc =>
    exact Or.inl (token_goto_same (by simp) rfl rfl rfl rfl (by rw [hpc]; rfl))
  | @donate t l' k hpc =>
    obtain ⟨seen, hnext⟩ := donation_next l' t k s.prio s.sh
    rw [hnext]
    have hraise : ∀ prio sh' pc', { s.goto t sh' pc' with prio := prio }
        = State.goto { s with prio := prio } t sh' pc' := fun _ _ _ => rfl
    rw [hraise]
    exact Or.inl (token_goto_same rfl rfl rfl rfl rfl (by rw [hpc]; rfl))
  | semInvV hpc =>
    exact Or.inl (token_goto_same (by simp) rfl rfl rfl rfl (by rw [hpc]; rfl))
  | take hpc hv => exact tokenNext_take hok hpc hv
  | own hpc => exact tokenNext_own hpc
  | drop hpc hheld => exact tokenNext_drop hpc hheld
  | give hpc => exact tokenNext_give hok hpc
  | @wait t c k hpc hheld =>
    refine Or.inl (token_goto_same rfl rfl rfl rfl rfl ?_)
    rw [hpc]
    by_cases hl : cl.lockOf c = l
    · exact if_pos hl
    · exact (if_neg hl).trans (if_neg hl)
  | waitP hpc hv => exact Or.inl (token_goto_same (by simp) rfl rfl rfl rfl (by rw [hpc]; rfl))
  | signalNone hpc hheld hlist | signal hpc hheld hlist =>
    exact Or.inl (token_goto_same rfl rfl rfl rfl rfl (by rw [hpc]; rfl))
  | signalV hpc => exact Or.inl (token_goto_same (by simp) rfl rfl rfl rfl (by rw [hpc]; rfl))
  | broadcast hpc hheld | broadcastEnd hpc hlist =>
    exact Or.inl (token_goto_same rfl rfl rfl rfl rfl (by rw [hpc]; rfl))
  | broadcastNext hpc hlist =>
    exact Or.inl (token_goto_same rfl rfl rfl rfl rfl (by rw [hpc]; rfl))
  | intrV hh => exact Or.inl (token_eq (by simp) rfl rfl rfl fun _ => rfl)
  | intr hh => exact Or.inl (token_eq rfl rfl rfl rfl fun _ => rfl)

/-- Initially the lock is free and every thread is elsewhere. -/
theorem token_init (hi : Init cl.prog s) : cl.token l s = Token.start := by
  obtain ⟨hsh, ctl₀, -, hctl⟩ := hi.boot
  have hphase : ∀ u, cl.ctlPhase l (s.ctl u) = .idle := by
    intro u
    rw [hctl]
    show cl.ctlPhase l (ctl₀ u).compile = .idle
    cases ctl₀ u <;> rfl
  simp only [Client.token, Token.start, hphase, hi.sem]
  rw [hsh]
  rfl

/-- **The lock refines the token protocol.** -/
theorem token_of_reach (h : ((machine cl.prog).restrict cl.NoReacquire).Reach s) (l : L) :
    TokenOk (cl.token l s) := by
  refine TokenOk.of_reach (h.simulate (cl.token l) (fun s hi => token_init hi) ?_)
  rintro s lab s' - hreach ⟨hno, hs⟩
  exact token_step (TokenOk.of_reach hreach) hno (mstep_of_stepFn hs)

end Token

/-! ## Clients that hold the lock where they should -/

/-- The calls that leave the locks of the caller as they are, and where they return to. -/
inductive Call.Keeps : Call L C U Sh Pc → Pc → Prop where
  | wait (c : C) (k : Pc) : Keeps (.wait c k) k
  | signal (c : C) (k : Pc) : Keeps (.signal c k) k
  | broadcast (c : C) (k : Pc) : Keeps (.broadcast c k) k
  | P (u : U) (upd : Sh → Sh) (k : Pc) : Keeps (.P u upd k) k
  | V (u : U) (upd : Sh → Sh) (k : Pc) : Keeps (.V u upd k) k
  | yield (k : Pc) : Keeps (.yield k) k
  | tau {f : Sh → Option (Sh × Pc)} {sh d : Sh} {k : Pc} (hf : f sh = some (d, k)) :
      Keeps (.tau f) k
  | fork {f : Sh → Option (Forking Sh Pc)} {sh : Sh} {a : Forking Sh Pc} (hf : f sh = some a) :
      Keeps (.fork f) a.next

/-- Where a step goes that cannot fail. -/
theorem Call.Keeps.of_some {g : Sh → Sh} {next : Sh → Pc} {k : Pc}
    (h : (Call.tau fun sh => some (g sh, next sh) : Call L C U Sh Pc).Keeps k) : ∃ sh, k = next sh := by
  cases h with
  | @tau _ sh _ _ hf => exact ⟨sh, (congrArg Prod.snd (Option.some.inj hf)).symm⟩

/-- An annotation of the client's program points with the locks held there, that every call
    respects. -/
structure Client.Disciplined (cl : Client L C U I Sh Pc) (held : Pc → L → Prop) : Prop where
  boot : ∀ {sh ctl prio}, cl.boot sh ctl prio → ∀ {t pc}, ctl t = .atPc pc → ∀ l, ¬ held pc l
  acquire : ∀ {t pc l k}, cl.call t pc = .acquire l k →
    ¬ held pc l ∧ ∀ l', held k l' ↔ held pc l' ∨ l' = l
  release : ∀ {t pc l k}, cl.call t pc = .release l k →
    held pc l ∧ ∀ l', held k l' ↔ held pc l' ∧ l' ≠ l
  keeps : ∀ {t pc k}, (cl.call t pc).Keeps k → ∀ l, held k l ↔ held pc l
  start : ∀ {t pc f sh a}, cl.call t pc = .fork f → f sh = some a → ∀ l, ¬ held a.start l

/-- The annotation, extended to the places a call returns to. -/
def Client.retHeld (cl : Client L C U I Sh Pc) (held : Pc → L → Prop) (l : L) : Ret C Pc → Prop
  | .client pc => held pc l
  | .waitP c _ k => held k l ∧ l ≠ cl.lockOf c
  | .broadcast _ k => held k l

/-- The annotation, extended to all program points. -/
def Client.pcHeld (cl : Client L C U I Sh Pc) (held : Pc → L → Prop) (l : L) : MPc L C Pc → Prop
  | .ret r => cl.retHeld held l r
  | .acquire l' _ k => held k l ∧ l ≠ l'
  | .release l' .test r => cl.retHeld held l r ∨ l = l'
  | .release _ .semV r => cl.retHeld held l r
  | .wait _ k => held k l
  | .signal _ r => cl.retHeld held l r
  | .signalV _ r => cl.retHeld held l r
  | .broadcast _ k => held k l

/-- What the annotation says about the place a call returns to. -/
def Client.retOk (cl : Client L C U I Sh Pc) (held : Pc → L → Prop) : Ret C Pc → Prop
  | .waitP c _ k => held k (cl.lockOf c)
  | _ => True

/-- What the annotation says about the return point of a call: the lock is held after `Acquire`,
    and not after `Release`. -/
def Client.pcOk (cl : Client L C U I Sh Pc) (held : Pc → L → Prop) : MPc L C Pc → Prop
  | .ret r => cl.retOk held r
  | .acquire l _ k => held k l
  | .release l _ r => ¬ cl.retHeld held l r ∧ cl.retOk held r
  | .signal _ r => cl.retOk held r
  | .signalV _ r => cl.retOk held r
  | _ => True

/-- The locks a thread should have acquired; a new one has none. -/
def Client.ctlHeld (cl : Client L C U I Sh Pc) (held : Pc → L → Prop) (l : L) :
    Ctl (MPc L C Pc) → Prop
  | .atPc pc => cl.pcHeld held l pc
  | _ => False

def Client.ctlOk (cl : Client L C U I Sh Pc) (held : Pc → L → Prop) : Ctl (MPc L C Pc) → Prop
  | .atPc pc => cl.pcOk held pc
  | _ => True

/-- Every thread that has not finished has acquired the locks that its program point says. -/
def HeldOk (cl : Client L C U I Sh Pc) (held : Pc → L → Prop) (s : cl.St) : Prop :=
  ∀ t, s.ctl t ≠ .finished →
    cl.ctlOk held (s.ctl t) ∧ ∀ l, t ∈ s.sh.acquired l ↔ cl.ctlHeld held l (s.ctl t)

section Held

variable {cl : Client L C U I Sh Pc} {held : Pc → L → Prop} {s s' : cl.St} {t : Tid}

theorem HeldOk.atPc {pc : MPc L C Pc} (h : HeldOk cl held s) (hpc : s.ctl t = .atPc pc) :
    cl.pcOk held pc ∧ ∀ l, t ∈ s.sh.acquired l ↔ cl.pcHeld held l pc := by
  have ht := h t (by rw [hpc]; nofun)
  rw [hpc] at ht
  exact ht

/-- `t` goes to `c`; the locks of the other threads are as before. -/
theorem HeldOk.move {c : Ctl (MPc L C Pc)} (h : HeldOk cl held s)
    (hctl : s'.ctl = Function.update s.ctl t c)
    (hother : ∀ u, u ≠ t → ∀ l, u ∈ s'.sh.acquired l ↔ u ∈ s.sh.acquired l)
    (hself : c ≠ .finished →
      cl.ctlOk held c ∧ ∀ l, t ∈ s'.sh.acquired l ↔ cl.ctlHeld held l c) :
    HeldOk cl held s' := by
  intro u hu
  rw [hctl] at hu ⊢
  by_cases hut : u = t
  · subst hut
    rw [Function.update_self] at hu ⊢
    exact hself hu
  · rw [Function.update_of_ne hut] at hu ⊢
    refine ⟨(h u hu).1, fun l => ?_⟩
    rw [hother u hut l]
    exact (h u hu).2 l

/-- The move does not touch `acquired`, and the points have the same annotation. -/
theorem HeldOk.keep {pc pc' : MPc L C Pc} (h : HeldOk cl held s) (hpc : s.ctl t = .atPc pc)
    (hctl : s'.ctl = Function.update s.ctl t (.atPc pc')) (hsh : s'.sh.acquired = s.sh.acquired)
    (hok : cl.pcOk held pc → cl.pcOk held pc')
    (hheld : ∀ l, cl.pcHeld held l pc' ↔ cl.pcHeld held l pc) : HeldOk cl held s' := by
  obtain ⟨hok', hacq⟩ := h.atPc hpc
  refine h.move hctl (fun u _ l => by rw [hsh]) fun _ => ⟨hok hok', fun l => ?_⟩
  rw [hsh, hacq l]
  exact (hheld l).symm

/-- A call goes to a point with the annotation of the caller's. -/
theorem HeldOk.call {pc : Pc} {pc' : MPc L C Pc} (hcl : cl.Disciplined held) (h : HeldOk cl held s)
    (hpc : s.ctl t = .atPc (.ret (.client pc))) (henters : (cl.call t pc).Enters pc') :
    HeldOk cl held (s.goto t s.sh pc') := by
  generalize hcall : cl.call t pc = call at henters
  cases henters with
  | acquire l' k =>
    obtain ⟨hnot, hk⟩ := hcl.acquire hcall
    refine h.keep hpc rfl rfl (fun _ => (hk l').mpr (Or.inr rfl)) fun l => ?_
    show held k l ∧ l ≠ l' ↔ held pc l
    rw [hk]
    constructor
    · rintro ⟨hl | hl, hne⟩
      · exact hl
      · exact absurd hl hne
    · intro hl
      refine ⟨Or.inl hl, ?_⟩
      rintro rfl
      exact hnot hl
  | release l' k =>
    obtain ⟨hheld, hk⟩ := hcl.release hcall
    refine h.keep hpc rfl rfl (fun _ => ⟨fun hl => ((hk l').mp hl).2 rfl, trivial⟩) fun l => ?_
    show held k l ∨ l = l' ↔ held pc l
    rw [hk]
    constructor
    · rintro (⟨hl, -⟩ | rfl)
      · exact hl
      · exact hheld
    · intro hl
      exact (em (l = l')).symm.imp (fun hne => ⟨hl, hne⟩) id
  | wait c k => exact h.keep hpc rfl rfl id (hcl.keeps (by rw [hcall]; exact .wait c k))
  | signal c k => exact h.keep hpc rfl rfl id (hcl.keeps (by rw [hcall]; exact .signal c k))
  | broadcast c k => exact h.keep hpc rfl rfl id (hcl.keeps (by rw [hcall]; exact .broadcast c k))

/-- The child starts with no lock, the parent goes on with its own. -/
theorem HeldOk.fork {pc : Pc} {f : Sh → Option (Forking Sh Pc)} {a : Forking Sh Pc}
    (hcl : cl.Disciplined held) (h : HeldOk cl held s) (hpc : s.ctl t = .atPc (.ret (.client pc)))
    (hcall : cl.call t pc = .fork f) (hf : f s.sh.client = some a) (hfresh : s.ctl a.child = .fresh)
    (hctl : s'.ctl = Function.update (Function.update s.ctl a.child (.atPc (.ret (.client a.start)))) t
      (.atPc (.ret (.client a.next)))) (hsh : s'.sh.acquired = s.sh.acquired) :
    HeldOk cl held s' := by
  have hne : t ≠ a.child := by
    rintro rfl
    rw [hpc] at hfresh
    nomatch hfresh
  have hchild : HeldOk cl held { s with
      ctl := Function.update s.ctl a.child (.atPc (.ret (.client a.start))) } := by
    refine h.move rfl (fun _ _ _ => Iff.rfl) fun _ => ⟨trivial, fun l => ?_⟩
    have hnone := (h a.child (by rw [hfresh]; nofun)).2 l
    rw [hfresh] at hnone
    exact iff_of_false hnone.mp (hcl.start hcall hf l)
  have hparent : Function.update s.ctl a.child (.atPc (.ret (.client a.start))) t
      = .atPc (.ret (.client pc)) := (Function.update_of_ne hne _ _).trans hpc
  exact hchild.keep hparent hctl hsh id (hcl.keeps (by rw [hcall]; exact .fork hf))

/-- The end of `Acquire`: the lock is one more. -/
theorem HeldOk.own {l' : L} {k : Pc} (h : HeldOk cl held s)
    (hpc : s.ctl t = .atPc (.acquire l' .setThname k)) :
    HeldOk cl held (s.goto t (s.sh.owned l' t) (.ret (.client k))) := by
  obtain ⟨hk, hold⟩ : held k l' ∧ ∀ l, t ∈ s.sh.acquired l ↔ held k l ∧ l ≠ l' := h.atPc hpc
  refine h.move rfl (fun u hu l => ?_) fun _ => ⟨trivial, fun l => ?_⟩
  · show u ∈ (s.sh.owned l' t).acquired l ↔ u ∈ s.sh.acquired l
    by_cases hl : l = l'
    · subst hl
      simp [MSh.owned, hu]
    · simp [MSh.owned, hl]
  · show t ∈ (s.sh.owned l' t).acquired l ↔ held k l
    by_cases hl : l = l'
    · subst hl
      simp [MSh.owned, hk]
    · simp [MSh.owned, hl, hold]

/-- The beginning of `Release`: the lock is one less, for it was acquired once. -/
theorem HeldOk.drop {l' : L} {r : Ret C Pc} (h : HeldOk cl held s)
    (hpc : s.ctl t = .atPc (.release l' .test r)) (hone : s.sh.acquired l' = [t]) :
    HeldOk cl held (s.goto t (s.sh.dropped l' t) (.release l' .semV r)) := by
  obtain ⟨⟨hr, hok⟩, hold⟩ : (¬ cl.retHeld held l' r ∧ cl.retOk held r) ∧
      ∀ l, t ∈ s.sh.acquired l ↔ cl.retHeld held l r ∨ l = l' := h.atPc hpc
  refine h.move rfl (fun u hu l => ?_) fun _ => ⟨⟨hr, hok⟩, fun l => ?_⟩
  · show u ∈ (s.sh.dropped l' t).acquired l ↔ u ∈ s.sh.acquired l
    by_cases hl : l = l'
    · subst hl
      simp [MSh.dropped, hone, hu]
    · simp [MSh.dropped, hl]
  · show t ∈ (s.sh.dropped l' t).acquired l ↔ cl.retHeld held l r
    by_cases hl : l = l'
    · subst hl
      simp [MSh.dropped, hone, hr]
    · simp [MSh.dropped, hl, hold]

/-- Step lemma. -/
theorem HeldOk.step {lab : Label I} (hcl : cl.Disciplined held) (h : HeldOk cl held s)
    (htok : ∀ l, TokenOk (cl.token l s)) (hs : MStep cl s lab s') : HeldOk cl held s' := by
  -- `thname` names the thread that has acquired the lock
  have hname : ∀ l t, s.sh.thname l = some t ↔ t ∈ s.sh.acquired l := fun l t =>
    ((htok l).mem_acquired).symm
  cases hs with
  | block hv => exact h
  | call hpc hentry => exact h.call hcl hpc (Call.enters_of_entry hentry)
  | userP hpc hcall => exact h.keep hpc rfl rfl id (hcl.keeps (by rw [hcall]; exact .P _ _ _))
  | userV hpc hcall => exact h.keep hpc rfl rfl id (hcl.keeps (by rw [hcall]; exact .V _ _ _))
  | tau hpc hcall hf => exact h.keep hpc rfl rfl id (hcl.keeps (by rw [hcall]; exact .tau hf))
  | yield hpc hcall => exact h.keep hpc rfl rfl id (hcl.keeps (by rw [hcall]; exact .yield _))
  | fork hpc hcall hf hfresh => exact h.fork hcl hpc hcall hf hfresh rfl rfl
  | finish hpc hcall => exact h.move rfl (fun _ _ _ => Iff.rfl) fun hne => absurd rfl hne
  | @reacquire t l' k hpc hheld =>
    -- the program point says that the lock is not held, and `thname` says it is
    exact absurd rfl (((h.atPc hpc).2 l').mp ((hname l' t).mp hheld)).2
  | enter hpc hheld | semInvP hpc => exact h.keep hpc rfl rfl id fun _ => Iff.rfl
  | @donate t l' k hpc =>
    obtain ⟨seen, hnext⟩ := donation_next l' t k s.prio s.sh
    rw [hnext]
    exact h.keep hpc rfl rfl id fun _ => Iff.rfl
  | semInvV hpc | take hpc hv => exact h.keep hpc rfl rfl id fun _ => Iff.rfl
  | own hpc => exact h.own hpc
  | @drop t l' r hpc hheld =>
    refine h.drop hpc ?_
    rw [show s.sh.acquired l' = _ from (htok l').acquired]
    exact congrArg Option.toList hheld
  | give hpc => exact h.keep hpc rfl rfl And.right fun _ => Iff.rfl
  | @wait t c k hpc hheld =>
    have hlock : held k (cl.lockOf c) := ((h.atPc hpc).2 _).mp ((hname _ t).mp hheld)
    refine h.keep hpc rfl rfl (fun _ => ⟨fun hl => hl.2 rfl, hlock⟩) fun l => ?_
    show (held k l ∧ l ≠ cl.lockOf c) ∨ l = cl.lockOf c ↔ held k l
    constructor
    · rintro (⟨hl, -⟩ | rfl)
      · exact hl
      · exact hlock
    · intro hl
      exact (em (l = cl.lockOf c)).symm.imp (fun hne => ⟨hl, hne⟩) id
  | waitP hpc hv | signalNone hpc hheld hlist | signal hpc hheld hlist | signalV hpc | broadcast hpc hheld
  | broadcastEnd hpc hlist | broadcastNext hpc hlist => exact h.keep hpc rfl rfl id fun _ => Iff.rfl
  | intrV hh => exact h
  | intr hh => exact h

theorem HeldOk.boot (hcl : cl.Disciplined held) (hi : Init cl.prog s) : HeldOk cl held s := by
  obtain ⟨hsh, ctl₀, hboot, hctl⟩ := hi.boot
  intro t _
  rw [hctl, hsh]
  show cl.ctlOk held (ctl₀ t).compile ∧ ∀ l, t ∈ [] ↔ cl.ctlHeld held l (ctl₀ t).compile
  cases ht : ctl₀ t with
  | fresh | finished => exact ⟨trivial, fun _ => iff_of_false List.not_mem_nil id⟩
  | atPc pc => exact ⟨trivial, fun l => iff_of_false List.not_mem_nil (hcl.boot hboot ht l)⟩

/-- Run lemma. -/
theorem heldOk_of_reach (hcl : cl.Disciplined held)
    (h : ((machine cl.prog).restrict cl.NoReacquire).Reach s) : HeldOk cl held s :=
  h.invariant (I := HeldOk cl held) (fun _ hi => HeldOk.boot hcl hi)
    fun _ _ _ hr hk hs => hk.step hcl (token_of_reach hr) (mstep_of_stepFn hs.2)

/-- **A disciplined client never acquires a lock it holds**, so all its runs are among those of the
    token protocol. -/
theorem Client.Disciplined.noReacquire (hcl : cl.Disciplined held)
    (h : (machine cl.prog).Reach s) : ((machine cl.prog).restrict cl.NoReacquire).Reach s := by
  refine h.to_restrict fun s lab s' hr _ => ?_
  cases lab with
  | intr i => exact trivial
  | run t =>
    intro pc l k hpc hcall hmem
    have htok := token_of_reach hr l
    have hidle : (cl.token l s).phase t = .idle := by
      simp only [Client.token, hpc]
      rfl
    have hacq : t ∈ s.sh.acquired l := htok.mem_acquired.mpr (htok.idle t hidle hmem)
    exact (hcl.acquire hcall).1 (((heldOk_of_reach hcl hr).atPc hpc).2 l |>.mp hacq)

theorem Client.Disciplined.token (hcl : cl.Disciplined held) (h : (machine cl.prog).Reach s)
    (l : L) : TokenOk (cl.token l s) := token_of_reach (hcl.noReacquire h) l

/-- **The annotation holds in every run**: at a point of its own code a thread holds the locks that
    the annotation says, and no others. -/
theorem Client.Disciplined.held_iff (hcl : cl.Disciplined held) (h : (machine cl.prog).Reach s)
    {pc : Pc} (hpc : s.ctl t = .atPc (.ret (.client pc))) (l : L) :
    held pc l ↔ s.sh.thname l = some t := by
  have hacq : t ∈ s.sh.acquired l ↔ held pc l :=
    ((heldOk_of_reach hcl (hcl.noReacquire h)).atPc hpc).2 l
  rw [← hacq]
  exact (hcl.token h l).mem_acquired

/-- So two threads at points where the same lock is held are the same. -/
theorem Client.Disciplined.exclusive (hcl : cl.Disciplined held) (h : (machine cl.prog).Reach s)
    {t u : Tid} {pc pc' : Pc} (ht : s.ctl t = .atPc (.ret (.client pc)))
    (hu : s.ctl u = .atPc (.ret (.client pc'))) {l : L} (hl : held pc l) (hl' : held pc' l) :
    t = u := by
  rw [hcl.held_iff h ht] at hl
  rw [hcl.held_iff h hu, hl] at hl'
  exact Option.some.inj hl'

end Held

/-! ## Mutual exclusion -/

/-- **Mutual exclusion.**  For every client, any number of threads and every interleaving in which
    nobody calls `Acquire` on a lock it holds: the value of `sem` and the number of holders add up to
    one; at most one thread is between the return of `Acquire` and its `Release`, and `thname` names
    it; `thname` never names a thread that is not a holder; and the `ASSERT` of `Release` does not stop
    a thread that has completed `Acquire` — whether it was called by the client or by
    `Condition::Wait`. -/
theorem lock_exclusion {cl : Client L C U I Sh Pc} {s : cl.St}
    (h : ((machine cl.prog).restrict cl.NoReacquire).Reach s) (l : L) :
    0 ≤ (s.sem (.lock l)).value ∧
    (s.sem (.lock l)).value + (s.sh.holders l).length = 1 ∧
    (s.sh.acquired l).length ≤ 1 ∧
    (∀ t ∈ s.sh.acquired l, s.sh.thname l = some t ∧ t ∈ s.sh.holders l) ∧
    (∀ t, s.sh.thname l = some t → t ∈ s.sh.holders l) ∧
    (∀ t ∈ s.sh.acquired l, ∀ r, s.ctl t = .atPc (.release l .test r) →
      ∃ s', stepFn cl.prog s (.run t) = some s') := by
  have htok := token_of_reach h l
  have hname : ∀ t, t ∈ s.sh.acquired l → s.sh.thname l = some t := fun t ht =>
    htok.mem_acquired.mp ht
  refine ⟨htok.nonneg, htok.sum, ?_, fun t ht => ⟨hname t ht, (htok.tag t (hname t ht)).1⟩,
    fun t ht => (htok.tag t ht).1, fun t ht r hpc => ?_⟩
  · rw [show s.sh.acquired l = (s.sh.thname l).toList from htok.acquired]
    cases s.sh.thname l with
    | none => exact Nat.zero_le 1
    | some t => exact Nat.le_refl 1
  · refine ⟨s.goto t (s.sh.dropped l t) (.release l .semV r), ?_⟩
    have hheld : s.sh.isHeldBy l t := hname t ht
    simp only [stepFn, hpc, Client.prog, Client.code, exec, if_pos hheld, Option.map_some]

/-- Threads that take a lock, wait on a condition, and let the lock go. -/
def waitClient : Client Unit Unit Empty Empty Unit Nat where
  lockOf _ := ()
  initial := nofun
  boot _ ctl _ := ctl = fun _ => .atPc 0
  call _ pc :=
    match pc with
    | 0 => .acquire () 1
    | 1 => .wait () 2
    | 2 => .release () 3
    | _ => .finish id
  handler := nofun

theorem waitClient_disciplined : waitClient.Disciplined fun pc _ => pc = 1 ∨ pc = 2 where
  boot := by
    rintro _ ctl _ hboot t pc hpc ⟨⟩
    obtain rfl : 0 = pc := by
      rw [show ctl = _ from hboot] at hpc
      exact Ctl.atPc.inj hpc
    decide
  acquire := by
    rintro t pc ⟨⟩ k hcall
    simp only [waitClient] at hcall
    split at hcall <;> cases hcall
    simp
  release := by
    rintro t pc ⟨⟩ k hcall
    simp only [waitClient] at hcall
    split at hcall <;> cases hcall
    simp
  keeps := by
    rintro t pc k hkeeps ⟨⟩
    simp only [waitClient] at hkeeps
    split at hkeeps <;> cases hkeeps
    decide
  start := by
    rintro t pc f sh a hcall
    simp only [waitClient] at hcall
    split at hcall <;> nomatch hcall

/-- `waitClient` as it is booted. -/
def waitInit : waitClient.St where
  sem _ := Semaphore.new 1
  log _ := SemLog.new 1
  ctl _ := .atPc (.ret (.client 0))
  prio _ := 0
  sh := .new ()

theorem waitInit_reach : (machine waitClient.prog).Reach waitInit := by
  refine .init ⟨fun x => ?_, fun x => ?_, rfl, fun _ => .atPc 0, rfl, rfl⟩
  · cases x with
    | user u => exact u.elim
    | _ => rfl
  · cases x with
    | user u => exact u.elim
    | _ => rfl

/-- Thread 1 acquires the lock and calls `Wait`; thread 2 sleeps in its `Acquire`. -/
def waitSchedule : List (Label Empty) := List.replicate 9 (.run 1) ++ List.replicate 6 (.run 2)

/-- Along `waitSchedule`: the `Release` in the `Wait` of thread 1 is not stopped by the `ASSERT`. -/
theorem lock_exclusion_wait :
    let s := Lts.replay (stepFn waitClient.prog) waitInit waitSchedule
    (s.sem (.lock ())).queue = [2] ∧ s.sh.acquired () = [1] ∧
      s.ctl 1 = .atPc (.release () .test (.waitP () 0 2)) ∧ ∃ s', stepFn waitClient.prog s (.run 1) = some s' :=
  have hreach := waitClient_disciplined.noReacquire (Lts.reach_replay machine_step waitInit_reach waitSchedule)
  ⟨rfl, rfl, rfl, (lock_exclusion hreach ()).2.2.2.2.2 1 (by decide) (.waitP () 0 2) rfl⟩

end Nachos
