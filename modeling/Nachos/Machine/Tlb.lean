/-
  `machine/translate.cc` — THE TLB IS A CACHE of the page table.

  `Translate` has two paths: the linear page table, indexed by the virtual page, and the TLB, searched for it.  A
  kernel that fills the TLB keeps it coherent: each valid entry is a copy of the entry of its page, as far as the
  frame and the read-only bit go (`Coherent`).

  1. **What a search finds** — with a coherent TLB, the page table has the same frame for the page
     (`Coherent.found`).

  2. **The two paths agree** (`tlb_refines_pageTable`) — whatever the TLB path returns other than a page fault, the
     page table path returns too; and where the TLB has the page, it returns what the page table path returns.
-/
import Nachos.Machine.Translate

namespace Nachos

namespace Mmu

/-- A machine with a TLB. -/
def withTlb (tlb : List TranslationEntry) (pageTableSize : BitVec 32) : Mmu := ⟨some tlb, none, pageTableSize⟩

/-- A machine with a linear page table. -/
def withPageTable (table : List TranslationEntry) (pageTableSize : BitVec 32) : Mmu := ⟨none, some table, pageTableSize⟩

/-- **The TLB is coherent**: a valid entry is for a page of the table, valid there, in the same frame and with the
    same read-only bit. -/
def Coherent (tlb table : List TranslationEntry) (pageTableSize : BitVec 32) : Prop :=
  ∀ cached ∈ tlb, cached.valid = true → ∃ (v : Nat) (entry : TranslationEntry), cached.virtualPage = v ∧
    v < pageTableSize.toNat ∧ table[v]? = some entry ∧ entry.valid = true ∧
    entry.physicalPage = cached.physicalPage ∧ entry.readOnly = cached.readOnly

section Paths

variable {tlb table : List TranslationEntry} {pageTableSize virtAddr : BitVec 32} {size : Int} {writing : Bool}
variable {entry cached : TranslationEntry} {i : Nat}

theorem reach_congr (hpage : entry.physicalPage = cached.physicalPage) (hreadOnly : entry.readOnly = cached.readOnly)
    (offset : Nat) (size : Int) (writing : Bool) : entry.reach offset size writing = cached.reach offset size writing := by
  have hframe : entry.pageFrame = cached.pageFrame := by
    rw [TranslationEntry.pageFrame, TranslationEntry.pageFrame, hpage]
  rw [TranslationEntry.reach, TranslationEntry.reach, hframe, hreadOnly]

/-- The number of a virtual page is positive as an `int` as well. -/
theorem toInt_vpn (virtAddr : BitVec 32) :
    (BitVec.ofNat 32 (virtAddr.toNat / pageSize)).toInt = (virtAddr.toNat / pageSize : Nat) := by
  have hlt := virtAddr.isLt
  have hnat : (BitVec.ofNat 32 (virtAddr.toNat / pageSize)).toNat = virtAddr.toNat / pageSize := by
    rw [BitVec.toNat_ofNat, show pageSize = 128 from rfl]
    omega
  rw [BitVec.toInt_eq_toNat_of_lt, hnat]
  rw [hnat, show pageSize = 128 from rfl]
  omega

/-- The search finds the page, or there is a page fault. -/
theorem findEntry_withTlb (vpn : Nat) :
    (withTlb tlb pageTableSize).findEntry vpn = some (.error .pageFaultException) ∨
      ∃ i cached, (withTlb tlb pageTableSize).findEntry vpn = some (.ok (i, cached)) := by
  rw [findEntry_eq_tlb rfl]
  cases (List.range tlbSize).findSome? (tlbHit tlb vpn) with
  | none => exact Or.inl rfl
  | some found => exact Or.inr ⟨found.1, found.2, rfl⟩

/-- The search finds a page that the TLB has. -/
theorem findEntry_of_mem (hlen : tlb.length = tlbSize) (hmem : cached ∈ tlb) (hvalid : cached.valid = true)
    (hpage : cached.virtualPage = (virtAddr.toNat / pageSize : Nat)) :
    ∃ i found, (withTlb tlb pageTableSize).findEntry (virtAddr.toNat / pageSize) = some (.ok (i, found)) := by
  rw [findEntry_eq_tlb rfl]
  cases hfound : (List.range tlbSize).findSome? (tlbHit tlb (virtAddr.toNat / pageSize)) with
  | some found => exact ⟨found.1, found.2, rfl⟩
  | none =>
    obtain ⟨i, hi, hget⟩ := List.mem_iff_getElem.mp hmem
    have hmiss := List.findSome?_eq_none_iff.mp hfound i (List.mem_range.mpr (hlen ▸ hi))
    have hhit : tlbHit tlb (virtAddr.toNat / pageSize) i = some (i, cached) := by
      apply tlbHit_eq_some.mpr
      refine ⟨rfl, ?_, hvalid, ?_⟩
      · rw [List.getElem?_eq_getElem hi, hget]
      · rw [toInt_vpn, hpage]
    rw [hmiss] at hhit
    cases hhit

theorem findEntry_withPageTable {vpn : Nat} (hin : vpn < pageTableSize.toNat) (hentry : table[vpn]? = some entry)
    (hvalid : entry.valid = true) :
    (withPageTable table pageTableSize).findEntry vpn = some (.ok (vpn, entry)) := by
  simp only [findEntry, withPageTable, if_neg (Nat.not_le.mpr hin), Option.bind_some, hentry, hvalid]
  rfl

/-- **What the TLB has found** is in the page table. -/
theorem Coherent.found (h : Coherent tlb table pageTableSize)
    (hfind : (withTlb tlb pageTableSize).findEntry (virtAddr.toNat / pageSize) = some (.ok (i, cached))) :
    ∃ entry, (withPageTable table pageTableSize).findEntry (virtAddr.toNat / pageSize) =
        some (.ok (virtAddr.toNat / pageSize, entry)) ∧
      entry.physicalPage = cached.physicalPage ∧ entry.readOnly = cached.readOnly := by
  obtain ⟨hget, hvalid, hpage⟩ := findEntry_tlb rfl hfind
  obtain ⟨v, entry, hv, hin, hentry, hok, hframe, hreadOnly⟩ := h cached (List.mem_of_getElem? hget) hvalid
  obtain rfl : v = virtAddr.toNat / pageSize := by
    rw [hpage, toInt_vpn] at hv
    exact (Int.ofNat_inj.mp hv).symm
  exact ⟨entry, findEntry_withPageTable hin hentry hok, hframe, hreadOnly⟩

/-- If the TLB has the page, the two paths give the same result. -/
theorem Coherent.same_result (h : Coherent tlb table pageTableSize) (haligned : misaligned virtAddr size = false)
    (hfind : (withTlb tlb pageTableSize).findEntry (virtAddr.toNat / pageSize) = some (.ok (i, cached)))
    (writing : Bool) :
    ((withPageTable table pageTableSize).translate virtAddr size writing).map Prod.snd =
      ((withTlb tlb pageTableSize).translate virtAddr size writing).map Prod.snd := by
  obtain ⟨entry, htable, hframe, hreadOnly⟩ := h.found hfind
  rw [translate_snd rfl haligned, translate_snd rfl haligned, htable, hfind]
  exact reach_congr hframe hreadOnly _ _ _

end Paths

/-- **THE TLB IS A CACHE**: what the TLB path returns, a page fault apart, the page table path returns; and the other
    way round for a page that the TLB has. -/
theorem tlb_refines_pageTable (tlb table : List TranslationEntry) (pageTableSize : BitVec 32)
    (hlen : tlb.length = tlbSize) (hcoherent : Coherent tlb table pageTableSize) (virtAddr : BitVec 32) (size : Int)
    (writing : Bool) :
    (∀ m r, (withTlb tlb pageTableSize).translate virtAddr size writing = some (m, r) →
      r ≠ .error .pageFaultException →
      ∃ m', (withPageTable table pageTableSize).translate virtAddr size writing = some (m', r)) ∧
    ∀ m' physAddr, (withPageTable table pageTableSize).translate virtAddr size writing = some (m', .ok physAddr) →
      (∃ cached ∈ tlb, cached.valid = true ∧ cached.virtualPage = (virtAddr.toNat / pageSize : Nat)) →
      ∃ m, (withTlb tlb pageTableSize).translate virtAddr size writing = some (m, .ok physAddr) := by
  constructor
  · intro m r htr hr
    by_cases haligned : misaligned virtAddr size = true
    · rw [translate_misaligned haligned] at htr
      obtain ⟨-, rfl⟩ := Prod.mk.inj (Option.some.inj htr)
      exact ⟨_, translate_misaligned haligned⟩
    · rw [Bool.not_eq_true] at haligned
      rcases findEntry_withTlb (virtAddr.toNat / pageSize) with hfault | ⟨i, cached, hfind⟩
      · -- the search has failed: `r` is a page fault
        have hsnd := translate_snd (m := withTlb tlb pageTableSize) rfl haligned writing
        rw [htr, hfault] at hsnd
        exact absurd (Option.some.inj hsnd) hr
      · have hsame := hcoherent.same_result haligned hfind writing
        rw [htr] at hsame
        obtain ⟨⟨m', r'⟩, htable, hr'⟩ := Option.map_eq_some_iff.mp hsame
        obtain rfl : r' = r := hr'
        exact ⟨m', htable⟩
  · rintro m' physAddr htr ⟨cached, hmem, hvalid, hpage⟩
    have haligned : misaligned virtAddr size = false := by
      rcases translate_cases htr with ⟨⟨exception, herror⟩, -⟩ | ⟨_, _, _, -, hit⟩
      · cases herror
      · exact hit.aligned
    obtain ⟨i, found, hfind⟩ := findEntry_of_mem hlen hmem hvalid hpage
    have hsame := hcoherent.same_result haligned hfind writing
    rw [htr] at hsame
    obtain ⟨⟨m, r⟩, htlb, hr⟩ := Option.map_eq_some_iff.mp hsame.symm
    obtain rfl : r = .ok physAddr := hr
    exact ⟨m, htlb⟩

/-- Two pages, in the frames 2 and 6. -/
def twoPages : List TranslationEntry := [⟨0, 2, true, false, false, false⟩, ⟨1, 6, true, true, false, false⟩]

/-- A TLB that has the second of them. -/
def secondCached : List TranslationEntry :=
  [⟨0, 0, false, false, false, false⟩, ⟨0, 0, false, false, false, false⟩, ⟨1, 6, true, true, true, false⟩,
    ⟨0, 0, false, false, false, false⟩]

theorem secondCached_coherent : Coherent secondCached twoPages 2 := by
  intro cached hmem hvalid
  simp only [secondCached, List.mem_cons, List.not_mem_nil, or_false] at hmem
  rcases hmem with rfl | rfl | rfl | rfl
  · cases hvalid
  · cases hvalid
  · exact ⟨1, _, rfl, by decide, rfl, rfl, rfl, rfl⟩
  · cases hvalid

/-- A load from the second page: both paths find it at 6 · 128 + 4. -/
theorem tlb_refines_pageTable_second :
    (∃ m', (withPageTable twoPages 2).translate 132 4 false = some (m', .ok 772)) ∧
      ∃ m, (withTlb secondCached 2).translate 132 4 false = some (m, .ok 772) := by
  obtain ⟨hfrom, hto⟩ := tlb_refines_pageTable secondCached twoPages 2 rfl secondCached_coherent 132 4 false
  have hresult : ((withTlb secondCached 2).translate 132 4 false).map Prod.snd = some (.ok 772) := rfl
  obtain ⟨⟨m, r⟩, htr, rfl⟩ := Option.map_eq_some_iff.mp hresult
  obtain ⟨m', htable⟩ := hfrom m (.ok 772) htr fun h => by cases h
  exact ⟨⟨m', htable⟩, hto m' 772 htable ⟨_, List.mem_of_getElem? (show secondCached[2]? = some _ from rfl), rfl, rfl⟩⟩

end Mmu

end Nachos
