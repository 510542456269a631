/-
  `filesys/directory.cc` — A DIRECTORY IS A PARTIAL MAP from keys to sectors.

  The key of a name is what its first 9 characters are, and a table of `tableSize` entries has room for `tableSize` keys.
  `Nachos.Filesys.Directory` says what each operation does to the entries; here the calls come one after the other, on a
  new directory, whatever was in its table before.

  1. **Map** (`MapCall`) — what a directory is for: the replies of `Find`, `Add` and `Remove`, and the map then.

  2. **Entries** (`Directory.slot`) — an entry in use is a key with its sector.  What a file that was removed has left in
     its entry does not count.

  3. **Calls** (`Directory.call_refines`) — on entries that represent the map a call replies as the map does, and the
     entries represent the next map.

  Together (`directory_refines_map`).
-/
import Nachos.Filesys.Directory
import Nachos.Lib.BoundedMap

namespace Nachos

namespace Directory

/-- The calls of a directory.  A name is any string, and a sector any `int`. -/
inductive Call where
  | find (name : CString)
  | add (name : CString) (newSector : BitVec 32)
  | remove (name : CString)

/-- What they return. -/
inductive Reply where
  | sector (found : Int)
  | bool (success : Bool)
  deriving DecidableEq

/-- One call, on the bytes of the table. -/
def call (d : Directory) : Call → Reply × Directory
  | .find name => (.sector (d.find name.memory), d)
  | .add name newSector =>
    let r := d.add name.memory newSector.toInt
    (.bool r.1, r.2)
  | .remove name =>
    let r := d.remove name.memory
    (.bool r.1, r.2)

/-! ## The map -/

/-- The first 9 characters of a name. -/
def nameKey (name : CString) : List UInt8 := name.chars.take fileNameMaxLen

/-- The key that a call is about. -/
def Call.key : Call → List UInt8
  | .find name | .add name _ | .remove name => nameKey name

/-- **A partial map with at most `tableSize` keys**: what each call returns, and what the map is then. -/
inductive MapCall {tableSize : Nat} : BoundedMap (List UInt8) Int tableSize → Call → Reply →
    BoundedMap (List UInt8) Int tableSize → Prop where
  | found {m : BoundedMap (List UInt8) Int tableSize} {name : CString} {sector : Int}
      (hlive : m.lookup (nameKey name) = some sector) : MapCall m (.find name) (.sector sector) m
  | notFound {m : BoundedMap (List UInt8) Int tableSize} {name : CString} (habsent : m.lookup (nameKey name) = none) :
      MapCall m (.find name) (.sector (-1)) m
  | adds {m : BoundedMap (List UInt8) Int tableSize} {name : CString} {newSector : BitVec 32}
      (habsent : m.lookup (nameKey name) = none) (hroom : m.size < tableSize) :
      MapCall m (.add name newSector) (.bool true) (m.insert (nameKey name) newSector.toInt hroom)
  | addFails {m : BoundedMap (List UInt8) Int tableSize} {name : CString} {newSector : BitVec 32}
      (hwhy : (m.lookup (nameKey name)).isSome = true ∨ m.size = tableSize) :
      MapCall m (.add name newSector) (.bool false) m
  | removes {m : BoundedMap (List UInt8) Int tableSize} {name : CString}
      (hpresent : (m.lookup (nameKey name)).isSome = true) :
      MapCall m (.remove name) (.bool true) (m.erase (nameKey name))
  | removeFails {m : BoundedMap (List UInt8) Int tableSize} {name : CString}
      (habsent : m.lookup (nameKey name) = none) : MapCall m (.remove name) (.bool false) m

/-- **A call affects its own key only.** -/
theorem MapCall.lookup_of_ne {tableSize : Nat} {m m' : BoundedMap (List UInt8) Int tableSize} {op : Call} {r : Reply}
    (h : MapCall m op r m') {k : List UInt8} (hk : k ≠ op.key) : m'.lookup k = m.lookup k := by
  cases h with
  | found | notFound | addFails | removeFails => rfl
  | adds habsent hroom => exact BoundedMap.lookup_insert_of_ne hroom hk
  | removes hpresent => exact BoundedMap.lookup_erase_of_ne hk

/-! ## The entries -/

/-- An entry in use: its key and its sector. -/
def slot (d : Directory) (i : Nat) : Option (List UInt8 × Int) :=
  if d.inUse i then some (d.key i, d.sector i) else none

variable {d d' : Directory} {i j : Nat} {name : Bytes}

theorem slot_of_inUse (huse : d.inUse i = true) : d.slot i = some (d.key i, d.sector i) := if_pos huse

theorem slot_eq_none_iff : d.slot i = none ↔ d.inUse i = false := by
  unfold slot
  cases d.inUse i with
  | false => exact iff_of_true rfl rfl
  | true => exact iff_of_false (Option.some_ne_none _) Bool.noConfusion

theorem slot_eq_some {k : List UInt8} {v : Int} (h : d.slot i = some (k, v)) : d.inUse i = true ∧ d.key i = k := by
  unfold slot at h
  split at h
  · rename_i huse
    exact ⟨huse, (Prod.mk.inj (Option.some.inj h)).1⟩
  · cases h

theorem SameEntry.slot (h : d.SameEntry d' i) : d'.slot i = d.slot i := by
  rw [Directory.slot, Directory.slot, h.inUse, h.key, h.sector]

/-- A change of one entry. -/
theorem slot_eq_update (hothers : ∀ j, j ≠ i → d.SameEntry d' j) :
    d'.slot = Function.update d.slot i (d'.slot i) := by
  funext j
  by_cases hji : j = i
  · rw [hji, Function.update_self]
  · rw [Function.update_of_ne hji, (hothers j hji).slot]

theorem slot_fill {newSector : Int} :
    (d.fill i name newSector).slot = Function.update d.slot i (some (fileKey name, int32 newSector)) := by
  rw [slot_eq_update fun j hji => sameEntry_fill hji, slot_of_inUse inUse_fill, key_fill, sector_fill]

/-! ## The calls -/

theorem fileKey_memory (name : CString) : fileKey name.memory = nameKey name := name.cstring_eq_take fileNameMaxLen

/-- **The entries represent the map.** -/
structure Stands {tableSize : Nat} (d : Directory) (m : BoundedMap (List UInt8) Int tableSize) : Prop where
  tableSize : d.tableSize = tableSize
  represents : m.Represents d.slot

namespace Stands

variable {tableSize : Nat} {m : BoundedMap (List UInt8) Int tableSize}

/-- A new directory is the empty map. -/
theorem new (tableSize : Nat) (mem : Bytes) :
    (Directory.new tableSize mem).Stands (BoundedMap.empty : BoundedMap (List UInt8) Int tableSize) := by
  obtain ⟨hsize, hfree⟩ := new_spec tableSize mem
  refine ⟨hsize, .of_empty ?_⟩
  intro i hi
  exact slot_eq_none_iff.mpr (hfree i hi)

/-- Where `FindIndex` finds the key, the map has it. -/
theorem lookup_of_found (h : d.Stands m) (hfind : d.findIndex name = some i) :
    i < tableSize ∧ d.slot i = some (fileKey name, d.sector i) ∧ m.lookup (fileKey name) = some (d.sector i) := by
  obtain ⟨hi, huse, hkey⟩ := findIndex_eq_some hfind
  rw [h.tableSize] at hi
  have hslot := slot_of_inUse huse
  rw [hkey] at hslot
  exact ⟨hi, hslot, h.represents.lookup_of_slot hi hslot⟩

/-- Where it does not, the map has not. -/
theorem lookup_of_not_found (h : d.Stands m) (hfind : d.findIndex name = none) : m.lookup (fileKey name) = none := by
  rw [h.represents.lookup_eq_none_iff]
  intro i hi v hslot
  obtain ⟨huse, hkey⟩ := slot_eq_some hslot
  rw [← h.tableSize] at hi
  exact findIndex_eq_none.mp hfind i hi huse hkey

/-- **`Find`** returns the sector of the key, or -1. -/
theorem find_eq (h : d.Stands m) (name : Bytes) : d.find name = (m.lookup (fileKey name)).getD (-1) := by
  unfold find
  cases hfind : d.findIndex name with
  | none =>
    rw [h.lookup_of_not_found hfind]
    rfl
  | some i =>
    obtain ⟨-, -, hlookup⟩ := h.lookup_of_found hfind
    rw [hlookup]
    rfl

/-- Room in the map is an entry that is not in use. -/
theorem room_iff (h : d.Stands m) : m.size < tableSize ↔ ∃ i < tableSize, d.inUse i = false := by
  rw [h.represents.room_iff]
  simp only [slot_eq_none_iff]

/-- **No two entries in use have one key.** -/
theorem key_injective (h : d.Stands m) (hi : i < tableSize) (hj : j < tableSize) (huse : d.inUse i = true)
    (huse' : d.inUse j = true) (hkey : d.key i = d.key j) : i = j := by
  have hslot := slot_of_inUse huse
  rw [hkey] at hslot
  exact h.represents.distinct i hi j hj _ _ _ hslot (slot_of_inUse huse')

/-- **`Add`**, on an entry that is not in use. -/
theorem fill (h : d.Stands m) (hi : i < tableSize) (hfree : d.inUse i = false) (hfind : d.findIndex name = none)
    (hroom : m.size < tableSize) (newSector : BitVec 32) :
    (d.fill i name newSector.toInt).Stands (m.insert (fileKey name) newSector.toInt hroom) := by
  have hint : int32 newSector.toInt = newSector.toInt := by
    rw [int32, BitVec.ofInt_toInt]
  refine ⟨h.tableSize, ?_⟩
  rw [slot_fill, hint]
  exact h.represents.fill hi (slot_eq_none_iff.mpr hfree) (h.lookup_of_not_found hfind) hroom _

/-- **`Remove`**, of the entry that was found. -/
theorem remove (h : d.Stands m) (hfind : d.findIndex name = some i) :
    ∃ d', d.remove name = (true, d') ∧ d'.Stands (m.erase (fileKey name)) := by
  obtain ⟨hi, hslot, -⟩ := h.lookup_of_found hfind
  obtain ⟨d', hremove, hsize, hfree, hothers⟩ := remove_spec hfind
  refine ⟨d', hremove, hsize.trans h.tableSize, ?_⟩
  rw [slot_eq_update hothers, slot_eq_none_iff.mpr hfree]
  exact h.represents.clear hi hslot

end Stands

/-- **One call**: it replies what the map would. -/
theorem call_refines {tableSize : Nat} (d : Directory) (m : BoundedMap (List UInt8) Int tableSize) (op : Call)
    (h : d.Stands m) : ∃ r d' m', some (d.call op) = some (r, d') ∧ MapCall m op r m' ∧ d'.Stands m' := by
  cases op with
  | find name =>
    have hfind := h.find_eq name.memory
    rw [fileKey_memory] at hfind
    refine ⟨_, d, m, rfl, ?_, h⟩
    cases hlookup : m.lookup (nameKey name) with
    | none =>
      rw [hfind, hlookup]
      exact .notFound hlookup
    | some sector =>
      rw [hfind, hlookup]
      exact .found hlookup
  | add name newSector =>
    rcases d.add_cases name.memory newSector.toInt with ⟨hwhy, hadd⟩ | ⟨hfind, i, hi, hfree, hadd⟩
    · refine ⟨.bool false, d, m, by rw [call, hadd], .addFails ?_, h⟩
      rcases hwhy with hfound | hfull
      · obtain ⟨i, hfind⟩ := Option.isSome_iff_exists.mp hfound
        obtain ⟨-, -, hlookup⟩ := h.lookup_of_found hfind
        rw [fileKey_memory] at hlookup
        refine Or.inl ?_
        rw [hlookup]
        rfl
      · refine Or.inr (Nat.le_antisymm m.card_le (Nat.le_of_not_lt ?_))
        rw [h.room_iff]
        rintro ⟨i, hi, hfree⟩
        rw [hfull i (h.tableSize.symm ▸ hi)] at hfree
        cases hfree
    · rw [h.tableSize] at hi
      have hroom : m.size < tableSize := h.room_iff.mpr ⟨i, hi, hfree⟩
      have habsent := h.lookup_of_not_found hfind
      have hstands := h.fill hi hfree hfind hroom newSector
      rw [fileKey_memory] at habsent hstands
      exact ⟨.bool true, _, _, by rw [call, hadd], .adds habsent hroom, hstands⟩
  | remove name =>
    cases hfind : d.findIndex name.memory with
    | none =>
      have habsent := h.lookup_of_not_found hfind
      rw [fileKey_memory] at habsent
      have hremove : d.remove name.memory = (false, d) := by
        simp only [Directory.remove, hfind]
      exact ⟨.bool false, d, m, by rw [call, hremove], .removeFails habsent, h⟩
    | some i =>
      obtain ⟨-, -, hlookup⟩ := h.lookup_of_found hfind
      obtain ⟨d', hremove, hstands⟩ := h.remove hfind
      rw [fileKey_memory] at hlookup hstands
      refine ⟨.bool true, d', _, by rw [call, hremove], .removes ?_, hstands⟩
      rw [hlookup]
      rfl

/-- The other names are found where they were. -/
theorem Stands.find_of_ne {tableSize : Nat} {m : BoundedMap (List UInt8) Int tableSize} (h : d.Stands m) {op : Call}
    {other : CString} (hne : nameKey other ≠ op.key) : (d.call op).2.find other.memory = d.find other.memory := by
  obtain ⟨r, d', m', hcall, hspec, h'⟩ := call_refines d m op h
  rw [Option.some.inj hcall, h'.find_eq, h.find_eq, fileKey_memory, hspec.lookup_of_ne hne]

/-- **`Add`** succeeds IFF the key is absent and an entry is not in use. -/
theorem Stands.add_iff {tableSize : Nat} {m : BoundedMap (List UInt8) Int tableSize} (h : d.Stands m) (name : CString)
    (newSector : BitVec 32) : (d.add name.memory newSector.toInt).1 = true ↔
      m.lookup (nameKey name) = none ∧ ∃ i < tableSize, d.inUse i = false := by
  rw [← h.room_iff]
  obtain ⟨r, d', m', hcall, hspec, -⟩ := call_refines d m (.add name newSector) h
  have hreply : Reply.bool (d.add name.memory newSector.toInt).1 = r := congrArg Prod.fst (Option.some.inj hcall)
  cases hspec with
  | adds habsent hroom =>
    rw [Reply.bool.inj hreply]
    exact iff_of_true rfl ⟨habsent, hroom⟩
  | addFails hwhy =>
    rw [Reply.bool.inj hreply]
    refine iff_of_false Bool.false_ne_true ?_
    rintro ⟨habsent, hroom⟩
    rcases hwhy with hpresent | hfull
    · rw [habsent] at hpresent
      cases hpresent
    · omega

/-- **`Remove`** succeeds IFF the key is present. -/
theorem Stands.remove_iff {tableSize : Nat} {m : BoundedMap (List UInt8) Int tableSize} (h : d.Stands m)
    (name : CString) : (d.remove name.memory).1 = true ↔ (m.lookup (nameKey name)).isSome = true := by
  obtain ⟨r, d', m', hcall, hspec, -⟩ := call_refines d m (.remove name) h
  have hreply : Reply.bool (d.remove name.memory).1 = r := congrArg Prod.fst (Option.some.inj hcall)
  cases hspec with
  | removes hpresent =>
    rw [Reply.bool.inj hreply]
    exact iff_of_true rfl hpresent
  | removeFails habsent =>
    rw [Reply.bool.inj hreply, habsent]
    exact iff_of_false Bool.false_ne_true Bool.false_ne_true

end Directory

/-- **A DIRECTORY IS A PARTIAL MAP**, from the first 9 characters of the names to sectors, with at most as many keys as the
    table has entries.  Made over any memory it is the empty map, and every list of calls gets the replies of the map, which
    the entries then represent, no two of those in use with one key.  So for the next call: `Find` returns the sector of
    the key or -1, `Add` succeeds IFF the key is absent and an entry is not in use, `Remove` succeeds IFF the key is
    present, and whatever is called, the other keys are found where they were. -/
theorem directory_refines_map (tableSize : Nat) (mem : Bytes) (ops : List Directory.Call) :
    ∃ replies d, ∃ m : BoundedMap (List UInt8) Int tableSize,
      Calls.runs (fun d op => some (Directory.call d op)) (Directory.new tableSize mem) ops = some (replies, d) ∧
      Calls.SpecRuns Directory.MapCall BoundedMap.empty ops replies m ∧ d.Stands m ∧
      (m.size < tableSize ↔ ∃ i < tableSize, d.inUse i = false) ∧
      (∀ i < tableSize, ∀ j < tableSize, d.inUse i = true → d.inUse j = true → d.key i = d.key j → i = j) ∧
      (∀ name : CString, d.find name.memory = (m.lookup (Directory.nameKey name)).getD (-1)) ∧
      (∀ (name : CString) (newSector : BitVec 32), (d.add name.memory newSector.toInt).1 = true ↔
        m.lookup (Directory.nameKey name) = none ∧ ∃ i < tableSize, d.inUse i = false) ∧
      (∀ name : CString, (d.remove name.memory).1 = true ↔ (m.lookup (Directory.nameKey name)).isSome = true) ∧
      ∀ (op : Directory.Call) (other : CString), Directory.nameKey other ≠ op.key →
        (d.call op).2.find other.memory = d.find other.memory := by
  obtain ⟨replies, d, m, hruns, hspec, hstands⟩ :=
    Calls.runs_refines Directory.call_refines ops (Directory.Stands.new tableSize mem)
  refine ⟨replies, d, m, hruns, hspec, hstands, hstands.room_iff, ?_, ?_, hstands.add_iff, hstands.remove_iff, ?_⟩
  · intro i hi j hj huse huse' hkey
    exact hstands.key_injective hi hj huse huse' hkey
  · intro name
    rw [hstands.find_eq, Directory.fileKey_memory]
  · intro op other hne
    exact hstands.find_of_ne hne

/-- A name of 12 characters is found by one of 10 with the same first 9, in a table that was not clear. -/
example : ((Directory.new 1 fun _ => 7).add (fun i => if i < 12 then 97 else 0) 5).2.find
    (fun i => if i < 10 then 97 else 0) = 5 := by
  decide

end Nachos
