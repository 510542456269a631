/-
  Mutual exclusion by a token that carries its owner's name.

  A counter `free` says how many tokens are free (there is one).  A process that wants it is
  `entering`; it TAKES the token (the counter goes down), then OWNS it by writing its name on the tag;
  to leave, it DROPS its name from the tag and then GIVES the token back.  Name and token are written
  in separate steps, so there are two windows in which the token is held and the tag is blank.

  `TokenOk` is the invariant of every run in which nobody enters while holding the token.  The
  processes are of any type, and nothing is assumed about who moves when.
-/
import Mathlib.Data.List.Nodup
import Nachos.Lib.Lts

namespace Nachos

/-! ## The protocol -/

/-- Where a process is with respect to the token. -/
inductive Phase where
  /-- Elsewhere; it may or may not own the token. -/
  | idle
  /-- On its way to take the token. -/
  | entering
  /-- It has taken the token and not written the tag. -/
  | taking
  /-- It has blanked the tag and not given the token back. -/
  | giving
  deriving DecidableEq

/-- The token: how many are free, who holds it, whose name is on the tag, who is between owning and
    dropping it, and where every process is. -/
structure Token (τ : Type) where
  free : Int
  holders : List τ
  tag : Option τ
  acquired : List τ
  phase : τ → Phase

namespace Token

variable {τ : Type} [DecidableEq τ]

/-- The steps of a process. -/
inductive Act (τ : Type) where
  | enter (t : τ)
  | take (t : τ)
  | own (t : τ)
  | drop (t : τ)
  /-- `again`: it goes on to take the token anew. -/
  | give (t : τ) (again : Bool)

/-- The protocol.  `enter` is for processes that do not hold the token. -/
inductive Step (s : Token τ) : Act τ → Token τ → Prop where
  | enter {t : τ} (hphase : s.phase t = .idle) (hnot : t ∉ s.holders) :
      Step s (.enter t) { s with phase := Function.update s.phase t .entering }
  | take {t : τ} (hphase : s.phase t = .entering) (hfree : s.free ≠ 0) :
      Step s (.take t) { s with
        free := s.free - 1
        holders := s.holders ++ [t]
        phase := Function.update s.phase t .taking }
  | own {t : τ} (hphase : s.phase t = .taking) :
      Step s (.own t) { s with
        tag := some t
        acquired := s.acquired ++ [t]
        phase := Function.update s.phase t .idle }
  | drop {t : τ} (hphase : s.phase t = .idle) (htag : s.tag = some t) :
      Step s (.drop t) { s with
        tag := none
        acquired := s.acquired.erase t
        phase := Function.update s.phase t .giving }
  | give {t : τ} {again : Bool} (hphase : s.phase t = .giving) :
      Step s (.give t again) { s with
        free := s.free + 1
        holders := s.holders.erase t
        phase := Function.update s.phase t (if again then .entering else .idle) }

/-- One free token, and everybody elsewhere. -/
def start : Token τ where
  free := 1
  holders := []
  tag := none
  acquired := []
  phase _ := .idle

/-- The protocol as a transition system. -/
def protocol (τ : Type) [DecidableEq τ] : Lts (Token τ) (Act τ) where
  init s := s = start
  step := Step

end Token

/-! ## The invariant -/

/-- There is one token, free or held; a name on the tag is the holder's; and the blank-tag windows
    are exactly `taking` and `giving`. -/
structure TokenOk {τ : Type} (s : Token τ) : Prop where
  nonneg : 0 ≤ s.free
  sum : s.free + s.holders.length = 1
  tag : ∀ t, s.tag = some t → t ∈ s.holders ∧ s.phase t = .idle
  window : ∀ t, s.phase t = .taking ∨ s.phase t = .giving → t ∈ s.holders ∧ s.tag = none
  entering : ∀ t, s.phase t = .entering → t ∉ s.holders
  idle : ∀ t, s.phase t = .idle → t ∈ s.holders → s.tag = some t
  acquired : s.acquired = s.tag.toList

namespace TokenOk

variable {τ : Type} {s : Token τ}

/-- A holder is the only one. -/
theorem holders_eq (h : TokenOk s) {t : τ} (ht : t ∈ s.holders) : s.holders = [t] := by
  have hsum := h.sum
  have hnonneg := h.nonneg
  cases hl : s.holders with
  | nil =>
    rw [hl] at ht
    exact absurd ht List.not_mem_nil
  | cons u rest =>
    rw [hl, List.length_cons] at hsum
    have hrest : rest = [] := List.eq_nil_of_length_eq_zero (by omega)
    subst hrest
    rw [hl] at ht
    rw [List.mem_singleton.mp ht]

/-- There is one holder. -/
theorem eq_of_holders {t u : τ} (h : TokenOk s) (ht : t ∈ s.holders) (hu : u ∈ s.holders) : u = t := by
  rw [h.holders_eq ht] at hu
  exact List.mem_singleton.mp hu

/-- Nobody but the holder can be in a window: it would hold the token too. -/
theorem eq_of_window {t u : τ} (h : TokenOk s) (ht : t ∈ s.holders)
    (hu : s.phase u = .taking ∨ s.phase u = .giving) : u = t :=
  h.eq_of_holders ht (h.window u hu).1

theorem free_of_holder (h : TokenOk s) {t : τ} (ht : t ∈ s.holders) : s.free = 0 := by
  have hsum := h.sum
  rw [h.holders_eq ht, List.length_singleton] at hsum
  omega

/-- A free token is held by nobody, and its tag is blank. -/
theorem of_free (h : TokenOk s) (hfree : s.free ≠ 0) :
    s.holders = [] ∧ s.tag = none ∧ s.free = 1 := by
  have hnil : s.holders = [] := by
    refine List.eq_nil_iff_forall_not_mem.mpr fun t ht => hfree (h.free_of_holder ht)
  refine ⟨hnil, ?_, ?_⟩
  · refine Option.eq_none_iff_forall_ne_some.mpr fun t ht => ?_
    have hmem := (h.tag t ht).1
    rw [hnil] at hmem
    exact List.not_mem_nil hmem
  · have hsum := h.sum
    rw [hnil, List.length_nil] at hsum
    omega

/-- A process in `acquired` has its name on the tag, and the other way round. -/
theorem mem_acquired (h : TokenOk s) {t : τ} : t ∈ s.acquired ↔ s.tag = some t := by
  rw [h.acquired, Option.mem_toList]

theorem start : TokenOk (Token.start : Token τ) where
  nonneg := Int.one_nonneg
  sum := rfl
  tag _ h := nomatch h
  window _ h := by rcases h with h | h <;> nomatch h
  entering _ h := nomatch h
  idle _ _ h := absurd h List.not_mem_nil
  acquired := rfl

variable [DecidableEq τ]

/-- A task in a phase other than the new phase of `t` is not `t`. -/
theorem ne_of_update {f : τ → Phase} {t u : τ} {p q : Phase} (hu : Function.update f t p u = q) (hpq : p ≠ q) :
    u ≠ t := by
  rintro rfl
  rw [Function.update_self] at hu
  exact hpq hu

/-- **Step lemma**: one case per action. -/
theorem step {s' : Token τ} {a : Token.Act τ} (h : TokenOk s) (hs : Token.Step s a s') :
    TokenOk s' := by
  cases hs with
  | @enter t hphase hnot =>
    -- only the phase of `t` changes, and `t` holds nothing
    refine ⟨h.nonneg, h.sum, fun u hu => ?_, fun u hu => ?_, fun u hu => ?_, fun u hu hmem => ?_,
      h.acquired⟩
    all_goals by_cases hut : u = t
    · exact absurd (hut ▸ (h.tag u hu).1) hnot
    · simpa [hut] using h.tag u hu
    · simp [hut] at hu
    · exact h.window u (by simpa [hut] using hu)
    · exact hut ▸ hnot
    · exact h.entering u (by simpa [hut] using hu)
    · simp [hut] at hu
    · exact h.idle u (by simpa [hut] using hu) hmem
  | @take t hphase hfree =>
    -- the token was free, so it was held by nobody and the tag was blank
    obtain ⟨hnil, htag, hone⟩ := h.of_free hfree
    refine ⟨?_, ?_, fun u hu => ?_, fun u hu => ?_, fun u hu => ?_, fun u hu hmem => ?_, h.acquired⟩
    · show 0 ≤ s.free - 1
      omega
    · show s.free - 1 + ((s.holders ++ [t]).length : Int) = 1
      rw [hnil]
      simp [hone]
    · rw [show s.tag = none from htag] at hu
      nomatch hu
    · by_cases hut : u = t
      · exact ⟨by simp [hut], htag⟩
      · have hmem := (h.window u (by simpa [hut] using hu)).1
        rw [hnil] at hmem
        exact absurd hmem List.not_mem_nil
    · have hut : u ≠ t := ne_of_update hu (by nofun)
      simp [hnil, hut]
    · have hut : u ≠ t := ne_of_update hu (by nofun)
      simp [hnil, hut] at hmem
  | @own t hphase =>
    obtain ⟨hmem, htag⟩ := h.window t (Or.inl hphase)
    refine ⟨h.nonneg, h.sum, fun u hu => ?_, fun u hu => ?_, fun u hu => ?_, fun u _ hu => ?_, ?_⟩
    · obtain rfl : t = u := Option.some.inj hu
      exact ⟨hmem, by simp⟩
    · by_cases hut : u = t
      · simp [hut] at hu
      · exact absurd (h.eq_of_window hmem (by simpa [hut] using hu)) hut
    · have hut : u ≠ t := ne_of_update hu (by nofun)
      exact h.entering u (by simpa [hut] using hu)
    · exact congrArg some (h.eq_of_holders hmem hu).symm
    · show s.acquired ++ [t] = [t]
      rw [h.acquired, htag]
      rfl
  | @drop t hphase htag =>
    have hmem := (h.tag t htag).1
    refine ⟨h.nonneg, h.sum, fun u hu => (nomatch hu), fun u hu => ?_, fun u hu => ?_,
      fun u hu hmem' => ?_, ?_⟩
    · by_cases hut : u = t
      · exact ⟨hut ▸ hmem, rfl⟩
      · exact absurd (h.eq_of_window hmem (by simpa [hut] using hu)) hut
    · have hut : u ≠ t := ne_of_update hu (by nofun)
      exact h.entering u (by simpa [hut] using hu)
    · have hut : u = t := h.eq_of_holders hmem hmem'
      simp [hut] at hu
    · show s.acquired.erase t = []
      rw [h.acquired, htag]
      simp
  | @give t again hphase =>
    obtain ⟨hmem, htag⟩ := h.window t (Or.inr hphase)
    have hnil : s.holders.erase t = [] := by
      rw [h.holders_eq hmem]
      simp
    refine ⟨?_, ?_, fun u hu => ?_, fun u hu => ?_, fun u hu => ?_, fun u hu hmem' => ?_, h.acquired⟩
    · show 0 ≤ s.free + 1
      have hnonneg := h.nonneg
      omega
    · show s.free + 1 + ((s.holders.erase t).length : Int) = 1
      rw [hnil, h.free_of_holder hmem]
      rfl
    · rw [show s.tag = none from htag] at hu
      nomatch hu
    · by_cases hut : u = t
      · subst hut
        cases again <;> simp at hu
      · exact absurd (h.eq_of_window hmem (by simpa [hut] using hu)) hut
    · show u ∉ s.holders.erase t
      rw [hnil]
      exact List.not_mem_nil
    · rw [show s.holders.erase t = [] from hnil] at hmem'
      exact absurd hmem' List.not_mem_nil

/-- **Run lemma.** -/
theorem of_reach (h : (Token.protocol τ).Reach s) : TokenOk s := by
  refine h.invariant (I := TokenOk) ?_ fun _ _ _ _ hok hs => hok.step hs
  rintro s rfl
  exact start

end TokenOk

end Nachos
