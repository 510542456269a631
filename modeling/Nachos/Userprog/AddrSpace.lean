/-
  `userprog/addrspace.cc` — address spaces and the frames of physical memory.

  The constructor computes the number of pages from the NOFF header (32-bit arithmetic, `divRoundUp` on
  `int`), checks it against the machine and against `myBitmap->NumClear()`, and takes one frame for
  each page with `myBitmap->Find()`.  The destructor clears the bits of the frames again.

  Frames are a `Pool`: the marked bits are the frames that are out, the page tables are what the owners
  hold.  `frames_refine`: every run of constructions and destructions is a run of the pool.  The check
  against `NumClear` is what makes `Find` succeed in every iteration (`setTranslation_spec`), and a
  frame it returns was clear, so nobody else has it.
-/
import Nachos.Lib.Pool
import Nachos.Machine.Translate
import Nachos.Userprog.BitMap

namespace Nachos

/-! ## The code -/

/-- `UserStackSize`. -/
def userStackSize : BitVec 32 := 1024#32

/-- `NOFFMAGIC`. -/
def noffMagicNumber : BitVec 32 := 0xbadfad#32

/-- `struct segment`. -/
structure Segment where
  virtualAddr : BitVec 32
  inFileAddr : BitVec 32
  size : BitVec 32

/-- `struct noffHeader`. -/
structure NoffHeader where
  noffMagic : BitVec 32
  code : Segment
  initData : Segment
  uninitData : Segment

/-- `SwapHeader`. -/
def swapHeader (bigEndian : Bool) (noffH : NoffHeader) : NoffHeader :=
  let swap (s : Segment) : Segment :=
    ⟨wordToHost bigEndian s.virtualAddr, wordToHost bigEndian s.inFileAddr,
      wordToHost bigEndian s.size⟩
  ⟨wordToHost bigEndian noffH.noffMagic, swap noffH.code, swap noffH.initData, swap noffH.uninitData⟩

/-- The header after the test for a swapped one. -/
def NoffHeader.toHost (bigEndian : Bool) (noffH : NoffHeader) : NoffHeader :=
  if noffH.noffMagic ≠ noffMagicNumber ∧ wordToHost bigEndian noffH.noffMagic = noffMagicNumber then
    swapHeader bigEndian noffH
  else noffH

/-- `divRoundUp(size, PageSize)`: the sum is `unsigned`, the argument of `divRoundUp` is `int`, and
    `numPages` is `unsigned` again. -/
def NoffHeader.numPages (noffH : NoffHeader) : BitVec 32 :=
  let size := noffH.code.size + noffH.initData.size + noffH.uninitData.size + userStackSize
  BitVec.ofInt 32 (divRoundUp size.toInt pageSize)

/-- The loop that sets up the translation, over the pages that are left. -/
def setTranslation (myBitmap : BitMap) : List Nat → Option (BitMap × List TranslationEntry)
  | [] => some (myBitmap, [])
  | i :: rest =>
    match myBitmap.find with
    | none => none
    | some (page, myBitmap') => (setTranslation myBitmap' rest).map fun r =>
        (r.1, ⟨i, page, true, false, false, false⟩ :: r.2)

theorem setTranslation_length : ∀ {is : List Nat} {b b' : BitMap} {table : List TranslationEntry},
    setTranslation b is = some (b', table) → table.length = is.length := by
  intro is b b' table h
  induction is generalizing b b' table with
  | nil =>
    obtain ⟨-, rfl⟩ := Prod.mk.inj (Option.some.inj h)
    rfl
  | cons i rest ih =>
    unfold setTranslation at h
    split at h
    · cases h
    · obtain ⟨⟨b₁, table₁⟩, hrest, heq⟩ := Option.map_eq_some_iff.mp h
      obtain ⟨-, rfl⟩ := Prod.mk.inj heq
      rw [List.length_cons, ih hrest, List.length_cons]

/-- `class AddrSpace`: the page table has `numPages` entries. -/
structure AddrSpace where
  pageTable : List TranslationEntry
  numPages : BitVec 32
  length_pageTable : pageTable.length = numPages.toNat

namespace AddrSpace

/-- The three `ASSERT`s of the constructor. -/
def asserts (myBitmap : BitMap) (noffH : NoffHeader) : Bool :=
  noffH.noffMagic = noffMagicNumber && noffH.numPages.toNat ≤ numPhysPages &&
    myBitmap.numClear.any fun n => noffH.numPages.toNat ≤ n

/-- The constructor, up to the loading of the segments. -/
def new (bigEndian : Bool) (myBitmap : BitMap) (header : NoffHeader) : Option (BitMap × AddrSpace) :=
  let noffH := header.toHost bigEndian
  if asserts myBitmap noffH then
    match h : setTranslation myBitmap (List.range noffH.numPages.toNat) with
    | none => none
    | some (myBitmap', pageTable) => some (myBitmap', {
        pageTable := pageTable
        numPages := noffH.numPages
        length_pageTable := (setTranslation_length h).trans List.length_range })
  else none

/-- `CleanMyBitmap`, which is the destructor. -/
def cleanMyBitmap (space : AddrSpace) (myBitmap : BitMap) : Option BitMap :=
  space.pageTable.foldlM (fun b e => b.clear e.physicalPage) myBitmap

/-- The frames of an address space. -/
def frames (space : AddrSpace) : List Int := space.pageTable.map (·.physicalPage)

end AddrSpace

/-! ## The machine's frames -/

/-- `myBitmap` and the live address spaces. -/
structure Frames where
  myBitmap : BitMap
  spaces : List AddrSpace

/-- An address space is made, or the one at an index is destroyed. -/
inductive FrameAct where
  | construct (header : NoffHeader)
  | destroy (i : Nat)

/-- The executable step. -/
def frameStep (bigEndian : Bool) (s : Frames) : FrameAct → Option Frames
  | .construct header => (AddrSpace.new bigEndian s.myBitmap header).map fun r =>
      ⟨r.1, s.spaces ++ [r.2]⟩
  | .destroy i =>
    match s.spaces[i]? with
    | none => none
    | some space => (space.cleanMyBitmap s.myBitmap).map fun b => ⟨b, s.spaces.eraseIdx i⟩

/-- Constructions and destructions, in any order. -/
def addrSpaces (bigEndian : Bool) : Lts Frames FrameAct where
  init s := (∃ garbage, BitMap.new numPhysPages garbage = some s.myBitmap) ∧ s.spaces = []
  step s a s' := frameStep bigEndian s a = some s'

/-! ## The frames are a pool -/

/-- The marked bits, as `Find` returns them. -/
def BitMap.out (b : BitMap) : Set Int := {f | ∃ i ∈ b.marked, f = (i : Int)}

/-- The pool of frames. -/
def Frames.pool (s : Frames) : Pool Int where
  used := s.myBitmap.out
  held := s.spaces.map AddrSpace.frames

section Pool

variable {b b' : BitMap} {bigEndian : Bool}

theorem BitMap.mem_out {i : Nat} : (i : Int) ∈ b.out ↔ i ∈ b.marked := by
  constructor
  · rintro ⟨j, hj, heq⟩
    rw [Int.ofNat_inj.mp heq]
    exact hj
  · intro hi
    exact ⟨i, hi, rfl⟩

theorem BitMap.test_iff_out {f : Int} : b.test f = some true ↔ f ∈ b.out := by
  constructor
  · intro h
    have hrange : b.InRange f := by
      unfold BitMap.test at h
      split at h
      · assumption
      · nomatch h
    obtain ⟨i, rfl⟩ := Int.eq_ofNat_of_zero_le hrange.1
    have hlt := BitMap.inRange_natCast.mp hrange
    rw [BitMap.test_eq hlt] at h
    exact BitMap.mem_out.mpr (BitMap.mem_marked.mpr ⟨hlt, Option.some.inj h⟩)
  · rintro ⟨i, hi, rfl⟩
    obtain ⟨hlt, hbit⟩ := BitMap.mem_marked.mp hi
    rw [BitMap.test_eq hlt, hbit]

/-- **The allocation loop.**  With enough clear bits every `Find` returns a frame that was clear. -/
theorem setTranslation_spec : ∀ (is : List Nat) (b : BitMap),
    is.length ≤ b.numBits - b.marked.card →
    ∃ b' table, setTranslation b is = some (b', table) ∧ b'.numBits = b.numBits ∧
      ∃ pages : List Nat, table.map (·.physicalPage) = pages.map (fun i : Nat => (i : Int)) ∧
        pages.Nodup ∧ (∀ i ∈ pages, i ∉ b.marked) ∧
        ∀ i, i ∈ b'.marked ↔ i ∈ b.marked ∨ i ∈ pages := by
  intro is b hroom
  induction is generalizing b with
  | nil =>
    exact ⟨b, [], rfl, rfl, [], rfl, List.nodup_nil, fun _ hi => absurd hi List.not_mem_nil, fun i => by simp⟩
  | cons v rest ih =>
    rw [List.length_cons] at hroom
    rcases b.find_spec with ⟨-, hfull⟩ | ⟨i, b₁, hfind, hlt, hfree, -, hbits₁, hmark₁⟩
    · -- no clear bit, against the test of `NumClear`
      rw [hfull, Finset.card_range] at hroom
      omega
    · have hroom₁ : rest.length ≤ b₁.numBits - b₁.marked.card := by
        rw [hbits₁, hmark₁, Finset.card_insert_of_notMem hfree]
        omega
      obtain ⟨b', table, hrest, hbits, pages, hpages, hnodup, hclear, hmark⟩ :=
        ih b₁ hroom₁
      refine ⟨b', ⟨v, i, true, false, false, false⟩ :: table, ?_, hbits.trans hbits₁, i :: pages, ?_,
        ?_, ?_, ?_⟩
      · unfold setTranslation
        rw [hfind]
        simp only [hrest, Option.map_some]
      · rw [List.map_cons, List.map_cons, hpages]
      · refine List.nodup_cons.mpr ⟨fun hi => hclear i hi ?_, hnodup⟩
        rw [hmark₁]
        exact Finset.mem_insert_self _ _
      · refine List.forall_mem_cons.mpr ⟨hfree, fun j hj hmem => hclear j hj ?_⟩
        rw [hmark₁]
        exact Finset.mem_insert_of_mem hmem
      · intro j
        rw [hmark, hmark₁, Finset.mem_insert, List.mem_cons]
        tauto

/-- **The constructor** returns whenever its `ASSERT`s pass, and hands out frames that were clear. -/
theorem AddrSpace.new_spec {header : NoffHeader}
    (h : AddrSpace.asserts b (header.toHost bigEndian) = true) :
    ∃ b' space, AddrSpace.new bigEndian b header = some (b', space) ∧ b'.numBits = b.numBits ∧
      space.frames.Nodup ∧ (∀ f ∈ space.frames, 0 ≤ f ∧ f ∉ b.out) ∧
      b'.out = b.out ∪ {f | f ∈ space.frames} := by
  have hroom : (header.toHost bigEndian).numPages.toNat ≤ b.numBits - b.marked.card := by
    unfold AddrSpace.asserts at h
    rw [b.numClear_spec] at h
    simp only [Option.any_some, Bool.and_eq_true, decide_eq_true_eq] at h
    exact h.2
  obtain ⟨b', table, hset, hbits, pages, hpages, hnodup, hclear, hmark⟩ :=
    setTranslation_spec (List.range (header.toHost bigEndian).numPages.toNat) b
      (by rw [List.length_range]; exact hroom)
  refine ⟨b', ⟨table, (header.toHost bigEndian).numPages,
    (setTranslation_length hset).trans List.length_range⟩, ?_, hbits, ?_, ?_, ?_⟩
  · unfold AddrSpace.new
    simp only [h, if_true]
    split
    · rename_i hnone
      rw [hset] at hnone
      nomatch hnone
    · rename_i b'' table'' hsome
      rw [hset] at hsome
      obtain ⟨rfl, rfl⟩ := Prod.mk.inj (Option.some.inj hsome)
      rfl
  · show (table.map (·.physicalPage)).Nodup
    rw [hpages]
    exact hnodup.map fun _ _ => Int.ofNat_inj.mp
  · show ∀ f ∈ table.map (·.physicalPage), _
    rw [hpages]
    intro f hf
    obtain ⟨i, hi, rfl⟩ := List.mem_map.mp hf
    exact ⟨Int.natCast_nonneg i, fun hout => hclear i hi (BitMap.mem_out.mp hout)⟩
  · ext f
    show f ∈ b'.out ↔ f ∈ b.out ∨ f ∈ table.map (·.physicalPage)
    rw [hpages, List.mem_map]
    constructor
    · rintro ⟨i, hi, rfl⟩
      rcases (hmark i).mp hi with hold | hnew
      · exact Or.inl (BitMap.mem_out.mpr hold)
      · exact Or.inr ⟨i, hnew, rfl⟩
    · rintro (⟨i, hi, rfl⟩ | ⟨i, hi, rfl⟩)
      · exact BitMap.mem_out.mpr ((hmark i).mpr (Or.inl hi))
      · exact BitMap.mem_out.mpr ((hmark i).mpr (Or.inr hi))

/-- The constructor returns only if its `ASSERT`s pass. -/
theorem AddrSpace.asserts_of_new {header : NoffHeader} {space : AddrSpace}
    (h : AddrSpace.new bigEndian b header = some (b', space)) :
    AddrSpace.asserts b (header.toHost bigEndian) = true := by
  unfold AddrSpace.new at h
  by_cases hasserts : AddrSpace.asserts b (header.toHost bigEndian) = true
  · exact hasserts
  · simp only [hasserts] at h
    nomatch h

/-- **The destructor** clears exactly the bits of its frames, if they are frames at all. -/
theorem AddrSpace.cleanMyBitmap_spec {space : AddrSpace} (h : ∀ f ∈ space.frames, b.InRange f) :
    ∃ b', space.cleanMyBitmap b = some b' ∧ b'.numBits = b.numBits ∧
      b'.out = b.out \ {f | f ∈ space.frames} := by
  have hpages : space.frames = (space.frames.map Int.toNat).map (fun i : Nat => (i : Int)) := by
    rw [List.map_map]
    refine (List.map_id' _).symm.trans (List.map_congr_left fun f hf => ?_)
    exact (Int.toNat_of_nonneg (h f hf).1).symm
  have hlt : ∀ i ∈ space.frames.map Int.toNat, i < b.numBits := by
    intro i hi
    obtain ⟨f, hf, rfl⟩ := List.mem_map.mp hi
    have hrange := h f hf
    unfold BitMap.InRange at hrange
    omega
  obtain ⟨b', hclear, hbits, hmark⟩ := BitMap.clearAll_spec _ b hlt
  refine ⟨b', ?_, hbits, ?_⟩
  · have hfold : space.cleanMyBitmap b = space.frames.foldlM BitMap.clear b := by
      unfold AddrSpace.cleanMyBitmap AddrSpace.frames
      rw [List.foldlM_map]
    rw [hfold, hpages, List.foldlM_map]
    exact hclear
  · ext f
    show f ∈ b'.out ↔ f ∈ b.out ∧ f ∉ space.frames
    rw [hpages]
    constructor
    · rintro ⟨i, hi, rfl⟩
      obtain ⟨hmem, hnot⟩ := (hmark i).mp hi
      refine ⟨BitMap.mem_out.mpr hmem, fun hin => hnot ?_⟩
      obtain ⟨j, hj, heq⟩ := List.mem_map.mp hin
      rw [← Int.ofNat_inj.mp heq]
      exact hj
    · rintro ⟨⟨i, hi, rfl⟩, hnot⟩
      exact BitMap.mem_out.mpr ((hmark i).mpr ⟨hi, fun hin => hnot (List.mem_map.mpr ⟨i, hin, rfl⟩)⟩)

/-! ## What holds in every run -/

variable {s s' : Frames}

/-- What a construction does. -/
theorem AddrSpace.of_new {header : NoffHeader} {space : AddrSpace}
    (h : AddrSpace.new bigEndian b header = some (b', space)) :
    b'.numBits = b.numBits ∧ space.frames.Nodup ∧ (∀ f ∈ space.frames, 0 ≤ f ∧ f ∉ b.out) ∧
      b'.out = b.out ∪ {f | f ∈ space.frames} := by
  obtain ⟨b₁, space₁, hnew, hspec⟩ := AddrSpace.new_spec (AddrSpace.asserts_of_new h)
  rw [h] at hnew
  obtain ⟨rfl, rfl⟩ := Prod.mk.inj (Option.some.inj hnew)
  exact hspec

/-- The frames of a live address space are marked, so they have a bit. -/
theorem Frames.inRange (hok : s.pool.Ok) {space : AddrSpace} (hspace : space ∈ s.spaces) {f : Int}
    (hf : f ∈ space.frames) : s.myBitmap.InRange f := by
  have hheld : f ∈ s.pool.held.flatten :=
    List.mem_flatten.mpr ⟨space.frames, List.mem_map.mpr ⟨space, hspace, rfl⟩, hf⟩
  obtain ⟨i, hi, rfl⟩ := (hok.used f).mpr hheld
  exact BitMap.inRange_natCast.mpr (BitMap.mem_marked.mp hi).1

/-- What a destruction does. -/
theorem AddrSpace.of_clean (hok : s.pool.Ok) {space : AddrSpace} (hspace : space ∈ s.spaces)
    (h : space.cleanMyBitmap s.myBitmap = some b') :
    b'.numBits = s.myBitmap.numBits ∧ b'.out = s.myBitmap.out \ {f | f ∈ space.frames} := by
  obtain ⟨b₁, hclean, hspec⟩ := AddrSpace.cleanMyBitmap_spec fun f hf => Frames.inRange hok hspace hf
  rw [h] at hclean
  obtain rfl := Option.some.inj hclean
  exact hspec

/-- The steps of the machine's frames. -/
inductive FrameStep (bigEndian : Bool) (s : Frames) : FrameAct → Frames → Prop where
  | construct {header : NoffHeader} {b : BitMap} {space : AddrSpace}
      (hnew : AddrSpace.new bigEndian s.myBitmap header = some (b, space)) :
      FrameStep bigEndian s (.construct header) ⟨b, s.spaces ++ [space]⟩
  | destroy {i : Nat} {b : BitMap} {space : AddrSpace} (hi : s.spaces[i]? = some space)
      (hclean : space.cleanMyBitmap s.myBitmap = some b) :
      FrameStep bigEndian s (.destroy i) ⟨b, s.spaces.eraseIdx i⟩

/-- **Inversion.** -/
theorem frameStep_inv {a : FrameAct} (h : frameStep bigEndian s a = some s') :
    FrameStep bigEndian s a s' := by
  cases a with
  | construct header =>
    obtain ⟨⟨b, space⟩, hnew, rfl⟩ := Option.map_eq_some_iff.mp h
    exact .construct hnew
  | destroy i =>
    simp only [frameStep] at h
    split at h
    · nomatch h
    · rename_i space hi
      obtain ⟨b, hclean, rfl⟩ := Option.map_eq_some_iff.mp h
      exact .destroy hi hclean

theorem addrSpaces_step (s : Frames) (a : FrameAct) (s' : Frames)
    (h : frameStep bigEndian s a = some s') : (addrSpaces bigEndian).step s a s' := h

/-- **Constructions and destructions are a run of the pool.** -/
theorem frames_refine (h : (addrSpaces bigEndian).Reach s) : (Pool.system Int).Reach s.pool := by
  refine h.simulate Frames.pool ?_ ?_
  · rintro s ⟨⟨garbage, hnew⟩, hspaces⟩
    obtain ⟨b, hb, -, hempty⟩ := BitMap.new_spec numPhysPages garbage
    rw [hnew] at hb
    obtain rfl := Option.some.inj hb
    refine ⟨Set.eq_empty_of_forall_notMem ?_, ?_⟩
    · rintro f ⟨i, hi, -⟩
      rw [hempty] at hi
      exact absurd hi (Finset.notMem_empty i)
    · show s.spaces.map AddrSpace.frames = []
      rw [hspaces]
      rfl
  · intro s a s' _ hpool hs
    cases frameStep_inv hs with
    | @construct header b space hnew =>
      obtain ⟨-, hnodup, hfresh, hout⟩ := AddrSpace.of_new hnew
      refine Or.inr ⟨.grant space.frames, ?_⟩
      have heq : Frames.pool ⟨b, s.spaces ++ [space]⟩ = s.pool.grant space.frames := by
        simp only [Frames.pool, Pool.grant, hout, List.map_append, List.map_cons, List.map_nil]
      rw [heq]
      exact .grant hnodup fun f hf => (hfresh f hf).2
    | @destroy i b space hi hclean =>
      obtain ⟨-, hout⟩ := AddrSpace.of_clean (.of_reach hpool) (List.mem_of_getElem? hi) hclean
      refine Or.inr ⟨.revoke i, ?_⟩
      have heq : Frames.pool ⟨b, s.spaces.eraseIdx i⟩ = s.pool.revoke i space.frames := by
        simp only [Frames.pool, Pool.revoke, hout, List.eraseIdx_map]
      rw [heq]
      refine .revoke ?_
      show (s.spaces.map AddrSpace.frames)[i]? = some space.frames
      rw [List.getElem?_map, hi]
      rfl

theorem numBits_of_reach (h : (addrSpaces bigEndian).Reach s) : s.myBitmap.numBits = numPhysPages := by
  refine h.invariant (I := fun s => s.myBitmap.numBits = numPhysPages) ?_ ?_
  · rintro s ⟨⟨garbage, hnew⟩, -⟩
    obtain ⟨b, hb, hbits, -⟩ := BitMap.new_spec numPhysPages garbage
    rw [hnew] at hb
    obtain rfl := Option.some.inj hb
    exact hbits
  · intro s a s' hr hbits hs
    cases frameStep_inv hs with
    | construct hnew => exact (AddrSpace.of_new hnew).1.trans hbits
    | @destroy i b space hi hclean =>
      have hok : s.pool.Ok := .of_reach (frames_refine hr)
      exact (AddrSpace.of_clean hok (List.mem_of_getElem? hi) hclean).1.trans hbits

end Pool

/-- **Every frame has one owner.**  After any sequence of constructions and destructions: no frame is
    twice in the page tables of the live address spaces, in two of them or in one; the frames are in
    `0..127`; the marked bits are exactly the frames; a construction that passes its `ASSERT`s
    returns, and no `Find` in it returns -1; and no `ASSERT` fails in a destruction. -/
theorem frames_owned_once {bigEndian : Bool} {s : Frames} (h : (addrSpaces bigEndian).Reach s) :
    (s.spaces.flatMap AddrSpace.frames).Nodup ∧
    (∀ space ∈ s.spaces, ∀ f ∈ space.frames, 0 ≤ f ∧ f < numPhysPages) ∧
    (∀ f, s.myBitmap.test f = some true ↔ ∃ space ∈ s.spaces, f ∈ space.frames) ∧
    (∀ header, AddrSpace.asserts s.myBitmap (header.toHost bigEndian) = true →
      ∃ b space, AddrSpace.new bigEndian s.myBitmap header = some (b, space) ∧ -1 ∉ space.frames) ∧
    ∀ space ∈ s.spaces, (space.cleanMyBitmap s.myBitmap).isSome := by
  have hok : s.pool.Ok := .of_reach (frames_refine h)
  have hbits := numBits_of_reach h
  have hrange : ∀ space ∈ s.spaces, ∀ f ∈ space.frames, s.myBitmap.InRange f :=
    fun _ hspace _ hf => Frames.inRange hok hspace hf
  refine ⟨?_, fun space hspace f hf => ?_, fun f => ?_, fun header hasserts => ?_,
    fun space hspace => ?_⟩
  · rw [List.flatMap_def]
    exact hok.nodup
  · have hin := hrange space hspace f hf
    unfold BitMap.InRange at hin
    rw [hbits] at hin
    exact hin
  · rw [BitMap.test_iff_out]
    refine (hok.used f).trans ?_
    show f ∈ (s.spaces.map AddrSpace.frames).flatten ↔ _
    rw [← List.flatMap_def, List.mem_flatMap]
  · obtain ⟨b, space, hnew, -, -, hfresh, -⟩ := AddrSpace.new_spec hasserts
    refine ⟨b, space, hnew, fun hbad => ?_⟩
    have hnonneg := (hfresh _ hbad).1
    omega
  · obtain ⟨b, hclean, -⟩ := AddrSpace.cleanMyBitmap_spec (hrange space hspace)
    rw [hclean]
    rfl

/-- `myBitmap` as it is booted, on words that were not clear. -/
def bootFrames : Frames where
  myBitmap := (BitMap.new numPhysPages fun _ => 0xdeadbeef#32).getD
    (.uninitialized numPhysPages fun _ => 0)
  spaces := []

theorem bootFrames_reach (bigEndian : Bool) : (addrSpaces bigEndian).Reach bootFrames := by
  refine .init ⟨⟨fun _ => 0xdeadbeef#32, ?_⟩, rfl⟩
  obtain ⟨b, hb, -⟩ := BitMap.new_spec numPhysPages fun _ => 0xdeadbeef#32
  simp only [bootFrames, hb, Option.getD_some]

/-- A program with 200 bytes of code: with the stack that is ten pages. -/
def smallHeader : NoffHeader := ⟨noffMagicNumber, ⟨0, 40, 200⟩, ⟨0, 0, 0⟩, ⟨0, 0, 0⟩⟩

/-- Two address spaces are made and the first is destroyed: the second has ten frames, and just these
    are marked. -/
theorem frames_owned_once_small :
    let s := Lts.replay (frameStep false) bootFrames
      [.construct smallHeader, .construct smallHeader, .destroy 0]
    s.spaces.map AddrSpace.frames = [[10, 11, 12, 13, 14, 15, 16, 17, 18, 19]] ∧
      ∀ f, s.myBitmap.test f = some true ↔ ∃ space ∈ s.spaces, f ∈ space.frames :=
  ⟨by decide +kernel, (frames_owned_once (Lts.reach_replay addrSpaces_step (bootFrames_reach false)
    [.construct smallHeader, .construct smallHeader, .destroy 0])).2.2.1⟩

end Nachos
