/-
  `userprog/addrspace.cc` — the loops that load the segments, as LOOPS.

  `Loader.lean` says which pages the two loops of the constructor read.  Here they are run: `i` and `j` are
  `unsigned int`, so both can wrap around; a call of `ReadAt` may not return (the `Lseek` of the stub file system
  has an `ASSERT`; which positions it refuses is left open, as `returns`), and then the loop is over, too.

  1. **The indices used** (`loadLoop`) — every iteration uses `pageTable[j]`, whether its `ReadAt` returns or not.

  2. **When they are all in the table** (`NoffHeader.Covers`) — the `ASSERT`s check the number of pages only, and
     nobody checks `virtualAddr`: the first page of a segment and the number of pages read from there on must not
     reach behind the table.  A data loop that would not end, because `i` wraps around before it comes to the bound,
     leaves the table long before (`loader_indices_iff`).

  3. **The closed form** (`loadLoops_reads`) — if every `ReadAt` returns, the pages are those of `Loader.lean`.
-/
import Nachos.Lib.Traced
import Nachos.Userprog.Loader

namespace Nachos

/-! ## The code -/

/-- `for ( ; test(i); i = i + PageSize) { … pageTable[j] … ReadAt(…, inFileAddr + i); j++; }`: the indices `j` used,
    and `i` after the loop, unless a `ReadAt` has not returned.  `none`: out of fuel. -/
def loadLoop (returns : BitVec 32 → Bool) (inFileAddr : BitVec 32) (test : Nat → Bool) :
    Nat → Nat → Nat → Option (Traced Nat Nat)
  | 0, _, _ => none
  | fuel + 1, j, i =>
    if test i then
      if returns (inFileAddr + BitVec.ofNat 32 i) then
        (loadLoop returns inFileAddr test fuel ((j + 1) % 2 ^ 32) ((i + pageSize) % 2 ^ 32)).map fun rest =>
          ⟨j :: rest.used, rest.result⟩
      else some ⟨[j], none⟩
    else some ⟨[], some i⟩

namespace NoffHeader

/-- The loop over the code. -/
def codeLoop (noffH : NoffHeader) (returns : BitVec 32 → Bool) (fuel : Nat) : Option (Traced Nat Nat) :=
  if 0 < noffH.code.size.toInt then
    loadLoop returns noffH.code.inFileAddr (fun i => i ≤ noffH.code.size.toNat) fuel noffH.code.firstPage 0
  else some ⟨[], some 0⟩

/-- The loop over the initialized data, from where the first has left `i`. -/
def dataLoop (noffH : NoffHeader) (returns : BitVec 32 → Bool) (fuel i : Nat) : Option (Traced Nat Nat) :=
  if 0 < noffH.initData.size.toInt then
    loadLoop returns noffH.code.inFileAddr (fun i => i < noffH.dataEnd) fuel noffH.initData.firstPage i
  else some ⟨[], some i⟩

/-- Both loops: the indices of `pageTable` they use. -/
def loadLoops (noffH : NoffHeader) (returns : BitVec 32 → Bool) (fuel : Nat) : Option (Traced Nat Nat) :=
  match noffH.codeLoop returns fuel with
  | none => none
  | some ⟨used, none⟩ => some ⟨used, none⟩
  | some ⟨used, some i⟩ => (noffH.dataLoop returns fuel i).map fun data => ⟨used ++ data.used, data.result⟩

end NoffHeader

/-! ## One loop -/

/-- How many calls of `ReadAt` are made, of `n` from `i` on: up to the first that does not return. -/
def callsMade (returns : BitVec 32 → Bool) (inFileAddr : BitVec 32) : Nat → Nat → Nat
  | _, 0 => 0
  | i, n + 1 =>
    if returns (inFileAddr + BitVec.ofNat 32 i) then callsMade returns inFileAddr (i + pageSize) n + 1 else 1

section Loop

variable {returns : BitVec 32 → Bool} {inFileAddr : BitVec 32} {test : Nat → Bool} {N : Nat}

/-- The loop ends, and the indices it uses are below `N`. -/
def LoopInside (returns : BitVec 32 → Bool) (inFileAddr : BitVec 32) (test : Nat → Bool) (N j i : Nat) : Prop :=
  ∃ fuel t, loadLoop returns inFileAddr test fuel j i = some t ∧ ∀ k ∈ t.used, k < N

/-- More fuel does no harm. -/
theorem loadLoop_mono {fuel fuel' j i : Nat} {t : Traced Nat Nat}
    (h : loadLoop returns inFileAddr test fuel j i = some t) (hle : fuel ≤ fuel') :
    loadLoop returns inFileAddr test fuel' j i = some t := by
  induction fuel generalizing fuel' j i t with
  | zero => cases h
  | succ fuel ih =>
    obtain ⟨more, rfl⟩ : ∃ more, fuel' = more + 1 := ⟨fuel' - 1, by omega⟩
    unfold loadLoop at h ⊢
    by_cases htest : test i = true
    · rw [if_pos htest] at h ⊢
      by_cases hret : returns (inFileAddr + BitVec.ofNat 32 i) = true
      · rw [if_pos hret] at h ⊢
        obtain ⟨rest, hrest, rfl⟩ := Option.map_eq_some_iff.mp h
        rw [ih hrest (by omega)]
        rfl
      · rw [if_neg hret] at h ⊢
        exact h
    · rw [if_neg htest] at h ⊢
      exact h

/-- The loop is over. -/
theorem loopInside_done {j i : Nat} (htest : ¬ test i = true) : LoopInside returns inFileAddr test N j i := by
  refine ⟨1, ⟨[], some i⟩, ?_, fun k hk => absurd hk List.not_mem_nil⟩
  rw [loadLoop, if_neg htest]

/-- **One iteration.** -/
theorem loopInside_step {j i : Nat} (htest : test i = true) :
    LoopInside returns inFileAddr test N j i ↔
      j < N ∧ (returns (inFileAddr + BitVec.ofNat 32 i) = true →
        LoopInside returns inFileAddr test N ((j + 1) % 2 ^ 32) ((i + pageSize) % 2 ^ 32)) := by
  constructor
  · rintro ⟨fuel, t, ht, hused⟩
    cases fuel with
    | zero => cases ht
    | succ fuel =>
      rw [loadLoop, if_pos htest] at ht
      by_cases hret : returns (inFileAddr + BitVec.ofNat 32 i) = true
      · rw [if_pos hret] at ht
        obtain ⟨rest, hrest, rfl⟩ := Option.map_eq_some_iff.mp ht
        obtain ⟨hj, hrest'⟩ := List.forall_mem_cons.mp hused
        exact ⟨hj, fun _ => ⟨fuel, rest, hrest, hrest'⟩⟩
      · rw [if_neg hret] at ht
        obtain rfl := Option.some.inj ht
        exact ⟨hused j (List.mem_singleton.mpr rfl), fun h => absurd h hret⟩
  · rintro ⟨hj, hrest⟩
    by_cases hret : returns (inFileAddr + BitVec.ofNat 32 i) = true
    · obtain ⟨fuel, rest, hloop, hused⟩ := hrest hret
      refine ⟨fuel + 1, ⟨j :: rest.used, rest.result⟩, ?_, List.forall_mem_cons.mpr ⟨hj, hused⟩⟩
      rw [loadLoop, if_pos htest, if_pos hret, hloop]
      rfl
    · refine ⟨1, ⟨[j], none⟩, ?_, List.forall_mem_singleton.mpr hj⟩
      rw [loadLoop, if_pos htest, if_neg hret]

/-- The pages that follow a page. -/
theorem add_page (i k : Nat) : i + pageSize + k * pageSize = i + (k + 1) * pageSize := by
  rw [Nat.succ_mul]
  omega

/-- **`n` iterations**: those that are made use the pages from `j` on, and if all calls return, the loop goes on. -/
theorem loopInside_iff {n j i : Nat} (hj : j < 2 ^ 32) (hi : i < 2 ^ 32)
    (htest : ∀ k < n, i + k * pageSize < 2 ^ 32 ∧ test (i + k * pageSize) = true) :
    LoopInside returns inFileAddr test N j i ↔
      (∀ k < callsMade returns inFileAddr i n, (j + k) % 2 ^ 32 < N) ∧
        ((∀ k < n, returns (inFileAddr + BitVec.ofNat 32 (i + k * pageSize)) = true) →
          LoopInside returns inFileAddr test N ((j + n) % 2 ^ 32) ((i + n * pageSize) % 2 ^ 32)) := by
  induction n generalizing j i with
  | zero =>
    rw [Nat.zero_mul, Nat.add_zero, Nat.add_zero, Nat.mod_eq_of_lt hj, Nat.mod_eq_of_lt hi]
    constructor
    · intro h
      exact ⟨fun k hk => absurd hk (Nat.not_lt_zero k), fun _ => h⟩
    · rintro ⟨-, h⟩
      exact h fun k hk => absurd hk (Nat.not_lt_zero k)
  | succ n ih =>
    rw [Nat.forall_lt_succ_left, Nat.zero_mul, Nat.add_zero] at htest
    obtain ⟨⟨-, hfirst⟩, hlater⟩ := htest
    have hjmod : (j + 0) % 2 ^ 32 = j := Nat.mod_eq_of_lt hj
    rw [loopInside_step hfirst, callsMade, Nat.forall_lt_succ_left, Nat.zero_mul]
    by_cases hret : returns (inFileAddr + BitVec.ofNat 32 i) = true
    · -- the next `i` wraps around only if this iteration was the last of the `n + 1`
      have hnext : LoopInside returns inFileAddr test N ((j + 1) % 2 ^ 32) ((i + pageSize) % 2 ^ 32) ↔
          (∀ k < callsMade returns inFileAddr (i + pageSize) n, (j + (k + 1)) % 2 ^ 32 < N) ∧
            ((∀ k < n, returns (inFileAddr + BitVec.ofNat 32 (i + (k + 1) * pageSize)) = true) →
              LoopInside returns inFileAddr test N ((j + (n + 1)) % 2 ^ 32) ((i + (n + 1) * pageSize) % 2 ^ 32)) := by
        cases n with
        | zero =>
          rw [Nat.zero_add, Nat.one_mul]
          constructor
          · intro h
            exact ⟨fun k hk => absurd hk (Nat.not_lt_zero k), fun _ => h⟩
          · rintro ⟨-, h⟩
            exact h fun k hk => absurd hk (Nat.not_lt_zero k)
        | succ n =>
          have hlt : i + pageSize < 2 ^ 32 := by
            have h := (hlater 0 (by omega)).1
            rw [Nat.zero_add, Nat.one_mul] at h
            exact h
          have hmod : ∀ k, ((j + 1) % 2 ^ 32 + k) % 2 ^ 32 = (j + (k + 1)) % 2 ^ 32 := by
            intro k
            omega
          rw [Nat.mod_eq_of_lt hlt, ih (Nat.mod_lt _ (by decide)) hlt fun k hk => by
            rw [add_page]
            exact hlater k hk]
          simp only [hmod, add_page]
      rw [if_pos hret, Nat.forall_lt_succ_left, hjmod, hnext]
      constructor
      · rintro ⟨hjN, hgo⟩
        obtain ⟨hmade, hrest⟩ := hgo hret
        exact ⟨⟨hjN, hmade⟩, fun hall => hrest hall.2⟩
      · rintro ⟨⟨hjN, hmade⟩, hrest⟩
        exact ⟨hjN, fun _ => ⟨hmade, fun hall => hrest ⟨hret, hall⟩⟩⟩
    · rw [if_neg hret, Nat.forall_lt_succ_left, hjmod]
      constructor
      · rintro ⟨hjN, -⟩
        exact ⟨⟨hjN, fun k hk => absurd hk (Nat.not_lt_zero k)⟩, fun hall => absurd hall.1 hret⟩
      · rintro ⟨⟨hjN, -⟩, -⟩
        exact ⟨hjN, fun h => absurd h hret⟩

/-- How the loop ends after `n` iterations: with `i` behind them if every call has returned. -/
theorem loadLoop_result {n fuel j i : Nat} {t : Traced Nat Nat} (hlt : i + n * pageSize < 2 ^ 32)
    (htest : ∀ k < n, test (i + k * pageSize) = true) (hend : ¬ test (i + n * pageSize) = true)
    (h : loadLoop returns inFileAddr test fuel j i = some t) :
    ((∀ k < n, returns (inFileAddr + BitVec.ofNat 32 (i + k * pageSize)) = true) →
      t.result = some (i + n * pageSize)) ∧
    (¬ (∀ k < n, returns (inFileAddr + BitVec.ofNat 32 (i + k * pageSize)) = true) → t.result = none) := by
  induction n generalizing fuel j i t with
  | zero =>
    rw [Nat.zero_mul, Nat.add_zero] at hend ⊢
    cases fuel with
    | zero => cases h
    | succ fuel =>
      rw [loadLoop, if_neg hend] at h
      obtain rfl := Option.some.inj h
      exact ⟨fun _ => rfl, fun hnot => absurd (fun k hk => absurd hk (Nat.not_lt_zero k)) hnot⟩
  | succ n ih =>
    rw [Nat.forall_lt_succ_left, Nat.zero_mul, Nat.add_zero] at htest
    obtain ⟨hfirst, hlater⟩ := htest
    have hnext : i + pageSize < 2 ^ 32 := by
      rw [Nat.succ_mul] at hlt
      omega
    rw [Nat.forall_lt_succ_left, Nat.zero_mul]
    cases fuel with
    | zero => cases h
    | succ fuel =>
      rw [loadLoop, if_pos hfirst] at h
      by_cases hret : returns (inFileAddr + BitVec.ofNat 32 i) = true
      · rw [if_pos hret, Nat.mod_eq_of_lt hnext] at h
        obtain ⟨rest, hrest, rfl⟩ := Option.map_eq_some_iff.mp h
        have hrun := ih (by rw [add_page]; exact hlt) (fun k hk => by rw [add_page]; exact hlater k hk)
          (by rw [add_page]; exact hend) hrest
        simp only [add_page] at hrun
        exact ⟨fun hall => hrun.1 hall.2, fun hnot => hrun.2 fun hall => hnot ⟨hret, hall⟩⟩
      · rw [if_neg hret] at h
        obtain rfl := Option.some.inj h
        exact ⟨fun hall => absurd hall.1 hret, fun _ => rfl⟩

/-- If every call returns, `n` calls are made. -/
theorem callsMade_eq {n i : Nat}
    (hall : ∀ k < n, returns (inFileAddr + BitVec.ofNat 32 (i + k * pageSize)) = true) :
    callsMade returns inFileAddr i n = n := by
  induction n generalizing i with
  | zero => rfl
  | succ n ih =>
    rw [Nat.forall_lt_succ_left, Nat.zero_mul, Nat.add_zero] at hall
    rw [callsMade, if_pos hall.1, ih fun k hk => ?_]
    rw [add_page]
    exact hall.2 k hk

theorem callsMade_pos {n i : Nat} (hn : 0 < n) : 0 < callsMade returns inFileAddr i n := by
  cases n with
  | zero => omega
  | succ n =>
    rw [callsMade]
    split <;> omega

/-- Consecutive pages are in the table IFF the last one is: `j` does not wrap around on the way. -/
theorem pages_lt_iff {j made : Nat} (hj : j < 2 ^ 32) (hN : N ≤ numPhysPages) (hmade : 0 < made) :
    (∀ k < made, (j + k) % 2 ^ 32 < N) ↔ j + made ≤ N := by
  have hphys : numPhysPages = 128 := rfl
  constructor
  · intro h
    have hfirst := h 0 hmade
    rw [Nat.add_zero, Nat.mod_eq_of_lt hj] at hfirst
    by_contra hover
    -- then page `N` itself is read
    have hlast := h (N - j) (by omega)
    omega
  · intro h k hk
    omega

end Loop

/-! ## Both loops -/

namespace NoffHeader

variable {noffH : NoffHeader} {returns : BitVec 32 → Bool} {N : Nat}

/-- Every `ReadAt` of the code loop returns. -/
def CodeReturns (noffH : NoffHeader) (returns : BitVec 32 → Bool) : Prop :=
  0 < noffH.code.size.toInt → ∀ k ≤ noffH.code.size.toNat / pageSize,
    returns (noffH.code.inFileAddr + BitVec.ofNat 32 (k * pageSize)) = true

/-- **The pages that are read are pages of the table**: the first page of the segment and the number of pages read from
    there on.  The code loop makes `size / PageSize + 1` calls of `ReadAt`; the data loop goes on in the file where
    the code loop has stopped, up to the sum of the sizes; and neither goes on after a call that does not return. -/
def Covers (noffH : NoffHeader) (returns : BitVec 32 → Bool) : Prop :=
  (0 < noffH.code.size.toInt →
    noffH.code.firstPage
      + callsMade returns noffH.code.inFileAddr 0 (noffH.code.size.toNat / pageSize + 1) ≤ noffH.numPages.toNat) ∧
  (0 < noffH.initData.size.toInt → noffH.CodeReturns returns → noffH.codeEnd < noffH.dataEnd →
    noffH.initData.firstPage + callsMade returns noffH.code.inFileAddr noffH.codeEnd
      ((noffH.dataEnd - noffH.codeEnd + (pageSize - 1)) / pageSize) ≤ noffH.numPages.toNat)

theorem codeSize_lt (h : 0 < noffH.code.size.toInt) : noffH.code.size.toNat < 2 ^ 31 := by
  rw [BitVec.toInt_eq_toNat_cond] at h
  have hlt := noffH.code.size.isLt
  split at h <;> omega

theorem firstPage_lt (seg : Segment) : seg.firstPage < 2 ^ 32 := BitVec.isLt _

/-- The iterations of the code loop. -/
theorem codeLoop_test {k : Nat} (hk : k < noffH.code.size.toNat / pageSize + 1) :
    0 + k * pageSize ≤ noffH.code.size.toNat := by
  rw [show pageSize = 128 from rfl] at hk ⊢
  omega

theorem codeLoop_end : ¬ 0 + (noffH.code.size.toNat / pageSize + 1) * pageSize ≤ noffH.code.size.toNat := by
  rw [show pageSize = 128 from rfl]
  omega

theorem codeEnd_lt (h : 0 < noffH.code.size.toInt) :
    0 + (noffH.code.size.toNat / pageSize + 1) * pageSize < 2 ^ 32 := by
  have hlt := codeSize_lt h
  rw [show pageSize = 128 from rfl]
  omega

/-- **The code loop** stays in the table. -/
theorem codeLoop_inside (hN : N ≤ numPhysPages) :
    (∃ fuel t, noffH.codeLoop returns fuel = some t ∧ ∀ k ∈ t.used, k < N) ↔
      (0 < noffH.code.size.toInt → noffH.code.firstPage
        + callsMade returns noffH.code.inFileAddr 0 (noffH.code.size.toNat / pageSize + 1) ≤ N) := by
  unfold codeLoop
  by_cases hsize : 0 < noffH.code.size.toInt
  · simp only [if_pos hsize]
    have hend := codeEnd_lt hsize
    have hloop := @loopInside_iff returns noffH.code.inFileAddr (fun i => decide (i ≤ noffH.code.size.toNat)) N
      (noffH.code.size.toNat / pageSize + 1) noffH.code.firstPage 0 (firstPage_lt _) (by decide) fun k hk => by
        have hle := codeLoop_test hk
        have hlt := codeSize_lt hsize
        exact ⟨by omega, decide_eq_true hle⟩
    rw [← pages_lt_iff (firstPage_lt noffH.code) hN (callsMade_pos (Nat.succ_pos _))]
    refine Iff.trans hloop ⟨fun h _ => h.1, fun h => ⟨h hsize, fun _ => loopInside_done ?_⟩⟩
    rw [Nat.mod_eq_of_lt hend, decide_eq_true_iff]
    exact codeLoop_end
  · simp only [if_neg hsize]
    refine ⟨fun _ h => absurd h hsize, fun _ => ⟨0, _, rfl, fun k hk => absurd hk List.not_mem_nil⟩⟩

/-- How the code loop ends. -/
theorem codeLoop_result {fuel : Nat} {t : Traced Nat Nat} (h : noffH.codeLoop returns fuel = some t) :
    (noffH.CodeReturns returns → t.result = some noffH.codeEnd) ∧
      (¬ noffH.CodeReturns returns → t.result = none) := by
  unfold codeLoop at h
  unfold CodeReturns codeEnd
  by_cases hsize : 0 < noffH.code.size.toInt
  · rw [if_pos hsize] at h ⊢
    have hrun := loadLoop_result (codeEnd_lt hsize) (fun k hk => decide_eq_true (codeLoop_test hk))
      (fun hle => codeLoop_end (of_decide_eq_true hle)) h
    simp only [Nat.zero_add, Nat.lt_succ_iff] at hrun
    exact ⟨fun hall => hrun.1 (hall hsize), fun hnot => hrun.2 fun hall => hnot fun _ => hall⟩
  · rw [if_neg hsize] at h ⊢
    obtain rfl := Option.some.inj h
    exact ⟨fun _ => rfl, fun hnot => absurd (fun hpos => absurd hpos hsize) hnot⟩

theorem codeLoop_mono {fuel fuel' : Nat} {t : Traced Nat Nat} (h : noffH.codeLoop returns fuel = some t)
    (hle : fuel ≤ fuel') : noffH.codeLoop returns fuel' = some t := by
  unfold codeLoop at h ⊢
  split at h
  · rename_i hsize
    rw [if_pos hsize]
    exact loadLoop_mono h hle
  · rename_i hsize
    rw [if_neg hsize]
    exact h

theorem dataLoop_mono {fuel fuel' i : Nat} {t : Traced Nat Nat} (h : noffH.dataLoop returns fuel i = some t)
    (hle : fuel ≤ fuel') : noffH.dataLoop returns fuel' i = some t := by
  unfold dataLoop at h ⊢
  split at h
  · rename_i hsize
    rw [if_pos hsize]
    exact loadLoop_mono h hle
  · rename_i hsize
    rw [if_neg hsize]
    exact h

theorem codeEnd_le : noffH.codeEnd ≤ 2 ^ 31 ∧ pageSize ∣ noffH.codeEnd := by
  unfold codeEnd
  split
  · rename_i hsize
    have hlt := codeSize_lt hsize
    refine ⟨?_, Nat.dvd_mul_left _ _⟩
    rw [show pageSize = 128 from rfl]
    omega
  · exact ⟨by decide, Nat.dvd_zero _⟩

/-- **The data loop** stays in the table.  If `i` would wrap around before the bound, the loop makes so many iterations
    that `j` leaves the table first, unless a `ReadAt` does not return. -/
theorem dataLoop_inside (hN : N ≤ numPhysPages) :
    (∃ fuel t, noffH.dataLoop returns fuel noffH.codeEnd = some t ∧ ∀ k ∈ t.used, k < N) ↔
      (0 < noffH.initData.size.toInt → noffH.codeEnd < noffH.dataEnd →
        noffH.initData.firstPage + callsMade returns noffH.code.inFileAddr noffH.codeEnd
          ((noffH.dataEnd - noffH.codeEnd + (pageSize - 1)) / pageSize) ≤ N) := by
  unfold dataLoop
  obtain ⟨hcode, hdvd⟩ := noffH.codeEnd_le
  have hdata : noffH.dataEnd < 2 ^ 32 := BitVec.isLt _
  rw [show pageSize = 128 from rfl] at hdvd
  by_cases hsize : 0 < noffH.initData.size.toInt
  · simp only [if_pos hsize]
    by_cases hrun : noffH.codeEnd < noffH.dataEnd
    · generalize hn : (noffH.dataEnd - noffH.codeEnd + (pageSize - 1)) / pageSize = n
      rw [show pageSize = 128 from rfl] at hn
      have hloop := @loopInside_iff returns noffH.code.inFileAddr (fun i => decide (i < noffH.dataEnd)) N n
        noffH.initData.firstPage noffH.codeEnd (firstPage_lt _) (by omega) fun k hk => by
          have hlt : noffH.codeEnd + k * pageSize < noffH.dataEnd := by
            rw [show pageSize = 128 from rfl]
            omega
          exact ⟨by omega, decide_eq_true hlt⟩
      have hcalls : 0 < callsMade returns noffH.code.inFileAddr noffH.codeEnd n := callsMade_pos (by omega)
      have hpages := pages_lt_iff (firstPage_lt noffH.initData) hN hcalls
      rw [← hpages]
      refine Iff.trans hloop ⟨fun h _ _ => h.1, fun h => ⟨h hsize hrun, fun hall => ?_⟩⟩
      by_cases hwrap : noffH.codeEnd + n * pageSize < 2 ^ 32
      · apply loopInside_done
        rw [Nat.mod_eq_of_lt hwrap, decide_eq_true_iff, show pageSize = 128 from rfl]
        omega
      · -- no call has stopped the loop, so it has made more iterations than there are pages
        have hmade := hpages.mp (h hsize hrun)
        rw [callsMade_eq hall] at hmade
        rw [show pageSize = 128 from rfl] at hwrap
        rw [show numPhysPages = 128 from rfl] at hN
        omega
    · refine ⟨fun _ _ h => absurd h hrun, fun _ => loopInside_done ?_⟩
      rw [decide_eq_true_iff]
      exact hrun
  · simp only [if_neg hsize]
    refine ⟨fun _ h => absurd h hsize, fun _ => ⟨0, _, rfl, fun k hk => absurd hk List.not_mem_nil⟩⟩

/-- **One loop after the other.** -/
theorem loadLoops_inside :
    (∃ fuel t, noffH.loadLoops returns fuel = some t ∧ ∀ k ∈ t.used, k < N) ↔
      (∃ fuel t, noffH.codeLoop returns fuel = some t ∧ ∀ k ∈ t.used, k < N) ∧
      (noffH.CodeReturns returns →
        ∃ fuel t, noffH.dataLoop returns fuel noffH.codeEnd = some t ∧ ∀ k ∈ t.used, k < N) := by
  constructor
  · rintro ⟨fuel, t, ht, hused⟩
    unfold loadLoops at ht
    split at ht
    · cases ht
    · rename_i used hcode
      obtain rfl := Option.some.inj ht
      refine ⟨⟨fuel, _, hcode, hused⟩, fun hret => ?_⟩
      have hresult := (codeLoop_result hcode).1 hret
      cases hresult
    · rename_i used i hcode
      obtain ⟨data, hdata, rfl⟩ := Option.map_eq_some_iff.mp ht
      refine ⟨⟨fuel, _, hcode, fun k hk => hused k (List.mem_append_left _ hk)⟩, fun hret => ?_⟩
      obtain rfl := Option.some.inj ((codeLoop_result hcode).1 hret)
      exact ⟨fuel, data, hdata, fun k hk => hused k (List.mem_append_right _ hk)⟩
  · rintro ⟨⟨fuel, ⟨used, result⟩, hcode, hused⟩, hrest⟩
    by_cases hret : noffH.CodeReturns returns
    · obtain ⟨fuel', data, hdata, hused'⟩ := hrest hret
      obtain rfl := (codeLoop_result hcode).1 hret
      refine ⟨max fuel fuel', ⟨used ++ data.used, data.result⟩, ?_, fun k hk => ?_⟩
      · simp only [loadLoops, codeLoop_mono hcode (Nat.le_max_left _ _),
          dataLoop_mono hdata (Nat.le_max_right _ _), Option.map_some]
      · rcases List.mem_append.mp hk with hk | hk
        · exact hused k hk
        · exact hused' k hk
    · obtain rfl := (codeLoop_result hcode).2 hret
      exact ⟨fuel, ⟨used, none⟩, by simp only [loadLoops, hcode], hused⟩

end NoffHeader

/-- **The loader's use of the page table.**  For every header that passes the `ASSERT`s the constructor gets its page
    table, and the loops end and use entries of it only, IFF the segments' pages, counted as the loops count them,
    are pages of the table. -/
theorem loader_indices_iff {bigEndian : Bool} {myBitmap : BitMap} {header : NoffHeader}
    (h : AddrSpace.asserts myBitmap (header.toHost bigEndian) = true) (returns : BitVec 32 → Bool) :
    ∃ b' space, AddrSpace.new bigEndian myBitmap header = some (b', space) ∧
      ((∃ fuel t, (header.toHost bigEndian).loadLoops returns fuel = some t ∧
          ∀ j ∈ t.used, j < space.pageTable.length) ↔
        (header.toHost bigEndian).Covers returns) := by
  obtain ⟨b', space, hnew, -⟩ := AddrSpace.new_spec h
  have hN := AddrSpace.numPages_le_of_asserts h
  refine ⟨b', space, hnew, ?_⟩
  rw [space.length_pageTable, AddrSpace.numPages_of_new hnew, NoffHeader.loadLoops_inside,
    NoffHeader.codeLoop_inside hN, NoffHeader.dataLoop_inside hN]
  unfold NoffHeader.Covers
  refine and_congr Iff.rfl ⟨fun hdata hsize hret => hdata hret hsize, fun hdata hret hsize => hdata hsize hret⟩

/-! ## The closed form -/

/-- The loop, when every call returns. -/
theorem loadLoop_run {inFileAddr : BitVec 32} {test : Nat → Bool} {n j i : Nat} (hj : j < 2 ^ 32)
    (hlt : i + n * pageSize < 2 ^ 32) (htest : ∀ k < n, test (i + k * pageSize) = true)
    (hend : ¬ test (i + n * pageSize) = true) :
    loadLoop (fun _ => true) inFileAddr test (n + 1) j i
      = some ⟨(pageReads j i n).map Prod.fst, some (i + n * pageSize)⟩ := by
  induction n generalizing j i with
  | zero =>
    rw [Nat.zero_mul, Nat.add_zero] at hend
    rw [loadLoop, if_neg hend, Nat.zero_mul]
    rfl
  | succ n ih =>
    have hfirst := htest 0 (by omega)
    rw [Nat.zero_mul, Nat.add_zero] at hfirst
    have hstep : ∀ k, i + pageSize + k * pageSize = i + (k + 1) * pageSize := by
      intro k
      rw [Nat.succ_mul]
      omega
    have hnext : i + pageSize < 2 ^ 32 := by
      rw [Nat.succ_mul] at hlt
      omega
    rw [loadLoop, if_pos hfirst, if_pos rfl, Nat.mod_eq_of_lt hnext, ih (Nat.mod_lt _ (by decide))
      (by rw [hstep]; exact hlt) (fun k hk => by rw [hstep]; exact htest (k + 1) (by omega))
      (by rw [hstep]; exact hend), Option.map_some, hstep]
    -- the pages behind the first
    have hpages : (pageReads j i (n + 1)).map Prod.fst
        = j :: (pageReads ((j + 1) % 2 ^ 32) (i + pageSize) n).map Prod.fst := by
      unfold pageReads
      rw [List.range_succ_eq_map]
      simp only [List.map_cons, List.map_map, Nat.add_zero, Nat.mod_eq_of_lt hj, List.cons.injEq, true_and]
      refine List.map_congr_left fun k _ => ?_
      show (j + (k + 1)) % 2 ^ 32 = ((j + 1) % 2 ^ 32 + k) % 2 ^ 32
      omega
    rw [hpages]

/-- A loop whose test holds for every multiple of the page size does not end. -/
theorem loadLoop_endless {inFileAddr : BitVec 32} {test : Nat → Bool}
    (htest : ∀ i < 2 ^ 32, i % 128 = 0 → test i = true) {fuel j i : Nat} (hi : i < 2 ^ 32) (hdvd : i % 128 = 0) :
    loadLoop (fun _ => true) inFileAddr test fuel j i = none := by
  induction fuel generalizing j i with
  | zero => rfl
  | succ fuel ih =>
    have hnext : (i + pageSize) % 2 ^ 32 % 128 = 0 := by
      rw [show pageSize = 128 from rfl]
      omega
    rw [loadLoop, if_pos (htest i hi hdvd), if_pos rfl, ih (Nat.mod_lt _ (by decide)) hnext]
    rfl

namespace NoffHeader

variable {noffH : NoffHeader}

theorem codeLoop_reads : ∃ fuel, noffH.codeLoop (fun _ => true) fuel
    = some ⟨noffH.codeReads.map Prod.fst, some noffH.codeEnd⟩ := by
  unfold codeLoop codeReads codeEnd
  by_cases hsize : 0 < noffH.code.size.toInt
  · refine ⟨noffH.code.size.toNat / pageSize + 1 + 1, ?_⟩
    rw [if_pos hsize, if_pos hsize, if_pos hsize, loadLoop_run (firstPage_lt _) (codeEnd_lt hsize)
      (fun k hk => decide_eq_true (codeLoop_test hk)) (fun hle => codeLoop_end (of_decide_eq_true hle)), Nat.zero_add]
  · refine ⟨0, ?_⟩
    rw [if_neg hsize, if_neg hsize, if_neg hsize]
    rfl

theorem dataLoop_reads {reads : List PageRead} (h : noffH.dataReads = some reads) :
    ∃ fuel t, noffH.dataLoop (fun _ => true) fuel noffH.codeEnd = some t ∧ t.used = reads.map Prod.fst := by
  obtain ⟨hcode, hdvd⟩ := noffH.codeEnd_le
  rw [show pageSize = 128 from rfl] at hdvd
  unfold dataReads at h
  unfold dataLoop
  split at h
  · rename_i hsize
    split at h
    · cases h
    · rename_i hwrap
      obtain rfl := Option.some.inj h
      rw [show pageSize = 128 from rfl] at hwrap
      generalize hn : (noffH.dataEnd - noffH.codeEnd + (pageSize - 1)) / pageSize = n
      rw [show pageSize = 128 from rfl] at hn
      refine ⟨n + 1, ⟨(pageReads noffH.initData.firstPage noffH.codeEnd n).map Prod.fst,
        some (noffH.codeEnd + n * pageSize)⟩, ?_, rfl⟩
      rw [if_pos hsize]
      refine loadLoop_run (firstPage_lt _) ?_ (fun k hk => decide_eq_true ?_) fun hlt => ?_
      · rw [show pageSize = 128 from rfl]
        omega
      · rw [show pageSize = 128 from rfl]
        omega
      · have hlt' := of_decide_eq_true hlt
        rw [show pageSize = 128 from rfl] at hlt'
        omega
  · rename_i hsize
    obtain rfl := Option.some.inj h
    exact ⟨0, ⟨[], some noffH.codeEnd⟩, if_neg hsize, rfl⟩

/-- **The pages of `Loader.lean` are those of the loops**, and the loops do not end where it says so. -/
theorem loadLoops_reads :
    (∀ reads, noffH.dataReads = some reads →
      ∃ fuel t, noffH.loadLoops (fun _ => true) fuel = some t ∧ t.used = (noffH.codeReads ++ reads).map Prod.fst) ∧
    (noffH.dataReads = none → ∀ fuel, noffH.loadLoops (fun _ => true) fuel = none) := by
  obtain ⟨fuel₁, hcode⟩ := noffH.codeLoop_reads
  constructor
  · intro reads hreads
    obtain ⟨fuel₂, data, hdata, hused⟩ := dataLoop_reads hreads
    refine ⟨max fuel₁ fuel₂, ⟨noffH.codeReads.map Prod.fst ++ data.used, data.result⟩, ?_, ?_⟩
    · simp only [loadLoops, codeLoop_mono hcode (Nat.le_max_left _ _),
        dataLoop_mono hdata (Nat.le_max_right _ _), Option.map_some]
    · rw [List.map_append, hused]
  · intro hnone fuel
    have hendless : noffH.dataLoop (fun _ => true) fuel noffH.codeEnd = none := by
      obtain ⟨hlt, hdvd⟩ := noffH.codeEnd_le
      rw [show pageSize = 128 from rfl] at hdvd
      unfold dataReads at hnone
      split at hnone
      · rename_i hsize
        split at hnone
        · rename_i hwrap
          rw [show pageSize = 128 from rfl] at hwrap
          rw [dataLoop, if_pos hsize]
          refine loadLoop_endless (fun i hi hmod => decide_eq_true ?_) (by omega) (by omega)
          omega
        · cases hnone
      · cases hnone
    -- whatever the code loop does with this fuel, the data loop does not end
    unfold loadLoops
    split
    · rfl
    · rename_i used hstop
      have hresult := (codeLoop_result hstop).1 fun _ _ _ => rfl
      cases hresult
    · rename_i used i hdone
      obtain rfl := Option.some.inj ((codeLoop_result hdone).1 fun _ _ _ => rfl)
      rw [hendless]
      rfl

end NoffHeader

/-! ## Two headers -/

/-- One page of code at address 0 and one byte of data behind it, in a program of 9 pages. -/
def twoPages : NoffHeader :=
  ⟨noffMagicNumber, ⟨0, 40, 100⟩, ⟨128, 140, 1⟩, ⟨0, 0, 0⟩⟩

/-- Code that begins at page 100, in a program of 9 pages. -/
def farCode : NoffHeader :=
  ⟨noffMagicNumber, ⟨12800, 40, 4⟩, ⟨0, 0, 0⟩, ⟨0, 0, 0⟩⟩

/-- The bitmap of a machine on which nothing is loaded. -/
def emptyBitMap : BitMap where
  numBits := 128
  map := List.replicate 4 0#32
  numWords := by decide

/-- A `ReadAt` that returns for every position that is not negative. -/
def stubReturns (position : BitVec 32) : Bool := 0 ≤ position.toInt

theorem loader_indices_two :
    ∃ fuel t, (twoPages.toHost false).loadLoops stubReturns fuel = some t ∧ ∀ j ∈ t.used, j < 9 := by
  have hasserts : AddrSpace.asserts emptyBitMap (twoPages.toHost false) = true := by decide +kernel
  obtain ⟨b', space, hnew, hiff⟩ := loader_indices_iff hasserts stubReturns
  have hlen : space.pageTable.length = 9 := by
    rw [space.length_pageTable, AddrSpace.numPages_of_new hnew]
    decide +kernel
  obtain ⟨fuel, t, ht, hused⟩ := hiff.mpr ⟨fun _ => by decide +kernel, fun _ _ _ => by decide +kernel⟩
  exact ⟨fuel, t, ht, fun j hj => hlen ▸ hused j hj⟩

/-- The header passes all the `ASSERT`s, the page table has 9 entries, and the loop uses entry 100. -/
theorem loader_leaves_table :
    AddrSpace.asserts emptyBitMap (farCode.toHost false) = true ∧ (farCode.toHost false).numPages = 9 ∧
      ((farCode.toHost false).loadLoops stubReturns 2).map Traced.used = some [100] := by
  refine ⟨by decide +kernel, by decide +kernel, by decide +kernel⟩

end Nachos
