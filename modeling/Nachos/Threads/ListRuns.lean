/-
  `threads/list.h` — WHOLE RUNS OF A LIST.

  A list that starts empty is called any number of times.  `Nachos.Threads.List` says what each operation does to the
  sequence that the pointers represent; here the calls come one after the other.

  1. **Sequence** (`SeqCall`) — what a list is for: a sequence of keys and items, with the replies of `Remove` and
     `SortedRemove`.

  2. **Pointers** (`LinkedList.Shape`) — `first` and `last` are NULL together, and `last` is where the `next` pointers
     end.

  3. **Order** (`Stamped`) — of the sorted calls alone.  Every member of the sequence carries the number of the call
     that inserted it, and the members stand in the order of (key, number): sorted, with equal keys in the order of their
     insertion.
-/
import Nachos.Lib.Calls
import Nachos.Threads.List

namespace Nachos

/-- The calls of a list. -/
inductive ListCall (Item : Type) where
  | append (item : Item)
  | prepend (item : Item)
  | remove
  | sortedInsert (item : Item) (sortKey : Int)
  | sortedRemove

/-- What they return; NULL is `none`. -/
inductive ListReply (Item : Type) where
  | done
  | item (removed : Option Item)
  | keyed (removed : Option (Int × Item))

/-- `SortedInsert` and `SortedRemove`. -/
def ListCall.isSorted {Item : Type} : ListCall Item → Bool
  | .sortedInsert .. | .sortedRemove => true
  | _ => false

variable {Item : Type}

/-- One call, on the pointers. -/
def LinkedList.call (l : LinkedList Item) : ListCall Item → Option (ListReply Item × LinkedList Item)
  | .append item => (l.append item).map fun l' => (.done, l')
  | .prepend item => (l.prepend item).map fun l' => (.done, l')
  | .remove => l.remove.map fun r => (.item r.1, r.2)
  | .sortedInsert item sortKey => (l.sortedInsert item sortKey).map fun l' => (.done, l')
  | .sortedRemove => l.sortedRemove.map fun r => (.keyed r.1, r.2)

/-! ## The sequence -/

/-- **A sequence of keys and items**: what each call returns, and what the sequence is then.  `SortedInsert` goes before
    the first larger key. -/
inductive SeqCall : List (Int × Item) → ListCall Item → ListReply Item → List (Int × Item) → Prop where
  | append (xs : List (Int × Item)) (item : Item) : SeqCall xs (.append item) .done (xs ++ [(0, item)])
  | prepend (xs : List (Int × Item)) (item : Item) : SeqCall xs (.prepend item) .done ((0, item) :: xs)
  | remove (xs : List (Int × Item)) : SeqCall xs .remove (.item (xs.head?.map Prod.snd)) xs.tail
  | sortedInsert {pre behind : List (Int × Item)} {item : Item} {sortKey : Int} (hpre : ∀ y ∈ pre, y.1 ≤ sortKey)
      (hbehind : ∀ y ∈ behind.head?, sortKey < y.1) :
      SeqCall (pre ++ behind) (.sortedInsert item sortKey) .done (pre ++ (sortKey, item) :: behind)
  | sortedRemove (xs : List (Int × Item)) : SeqCall xs .sortedRemove (.keyed xs.head?) xs.tail

/-- Where the loop of `SortedInsert` stops. -/
theorem exists_split (sortKey : Int) (xs : List (Int × Item)) :
    ∃ pre behind, xs = pre ++ behind ∧ (∀ y ∈ pre, y.1 ≤ sortKey) ∧ ∀ y ∈ behind.head?, sortKey < y.1 := by
  induction xs with
  | nil => exact ⟨[], [], rfl, fun _ hy => absurd hy List.not_mem_nil, fun _ hy => absurd hy (Option.not_mem_none _)⟩
  | cons x xs ih =>
    rcases Int.lt_or_le sortKey x.1 with hlt | hle
    · refine ⟨[], x :: xs, rfl, fun _ hy => absurd hy List.not_mem_nil, ?_⟩
      intro y hy
      obtain rfl := Option.some.inj hy
      exact hlt
    · obtain ⟨pre, behind, rfl, hpre, hbehind⟩ := ih
      exact ⟨x :: pre, behind, rfl, List.forall_mem_cons.mpr ⟨hle, hpre⟩, hbehind⟩

/-- **One call**: it returns, and replies what the sequence would. -/
theorem LinkedList.call_refines (l : LinkedList Item) (xs : List (Int × Item)) (op : ListCall Item)
    (h : l.Represents xs) : ∃ r l' xs', l.call op = some (r, l') ∧ SeqCall xs op r xs' ∧ l'.Represents xs' := by
  cases op with
  | append item =>
    obtain ⟨l', happend, hrep⟩ := h.append item
    exact ⟨_, l', _, by rw [LinkedList.call, happend]; rfl, .append xs item, hrep⟩
  | prepend item =>
    obtain ⟨l', hprepend, hrep⟩ := h.prepend item
    exact ⟨_, l', _, by rw [LinkedList.call, hprepend]; rfl, .prepend xs item, hrep⟩
  | remove =>
    obtain ⟨l', hremove, hrep⟩ := h.remove
    exact ⟨_, l', _, by rw [LinkedList.call, hremove]; rfl, .remove xs, hrep⟩
  | sortedInsert item sortKey =>
    obtain ⟨l', hinsert, hrep⟩ := h.sortedInsert item sortKey
    obtain ⟨pre, behind, rfl, hpre, hbehind⟩ := exists_split sortKey xs
    rw [LinkedList.insertSorted_append hpre hbehind] at hrep
    exact ⟨_, l', _, by rw [LinkedList.call, hinsert]; rfl, .sortedInsert hpre hbehind, hrep⟩
  | sortedRemove =>
    obtain ⟨l', hremove, hrep⟩ := h.sortedRemove
    exact ⟨_, l', _, by rw [LinkedList.call, hremove]; rfl, .sortedRemove xs, hrep⟩

/-! ## The pointers -/

namespace LinkedList

/-- The elements that the `next` pointers lead to, from `first` on. -/
inductive Reaches (l : LinkedList Item) : Nat → Prop where
  | first {p : Nat} (h : l.first = some p) : Reaches l p
  | next {p q : Nat} {node : ListElement Item} (hp : Reaches l p) (hnode : l.elements p = some node)
      (hnext : node.next = some q) : Reaches l q

/-- **The shape of a list**: it ends in `last`. -/
structure Shape (l : LinkedList Item) (xs : List (Int × Item)) : Prop where
  first_iff : l.first = none ↔ xs = []
  last_iff : l.last = none ↔ xs = []
  last_reached : ∀ p, l.last = some p → l.Reaches p ∧ ∃ node, l.elements p = some node ∧ node.next = none
  last_only : ∀ p node, l.Reaches p → l.elements p = some node → node.next = none → l.last = some p

section Shape

variable {l : LinkedList Item} {cells cells' : List (Nat × Int × Item)}

/-- A chain from an element that is reached goes through elements that are reached. -/
theorem reaches_of_chain {a b : Option Nat} (ha : ∀ p ∈ a, l.Reaches p) (h : Chain (view l.elements) a cells b) :
    ∀ p ∈ cells.map Prod.fst, l.Reaches p := by
  induction cells generalizing a with
  | nil =>
    intro p hp
    exact absurd hp List.not_mem_nil
  | cons cell cells ih =>
    obtain ⟨q, k, i⟩ := cell
    obtain ⟨rfl, next, hview, hrest⟩ := h
    have hq : l.Reaches q := ha q rfl
    have hnext : ∀ p ∈ next, l.Reaches p := by
      intro p hp
      exact .next hq (view_eq_some hview) hp
    exact List.forall_mem_cons.mpr ⟨hq, ih hnext hrest⟩

theorem split_of_mem {p : Nat} (hp : p ∈ cells.map Prod.fst) : ∃ pre x behind, cells = pre ++ (p, x) :: behind := by
  obtain ⟨⟨q, x⟩, hmem, rfl⟩ := List.mem_map.mp hp
  obtain ⟨pre, behind, hsplit⟩ := List.append_of_mem hmem
  exact ⟨pre, x, behind, hsplit⟩

/-- Where a chain starts is the address of its first element. -/
theorem mem_of_start {p : Nat} (h : Chain (view l.elements) (some p) cells none) : p ∈ cells.map Prod.fst := by
  obtain ⟨cell, hhead, hp⟩ := Option.map_eq_some_iff.mp h.start.symm
  exact List.mem_map.mpr ⟨cell, List.mem_of_mem_head? hhead, hp⟩

/-- **Nothing else is reached.** -/
theorem Links.mem_of_reaches (h : l.Links cells) {p : Nat} (hp : l.Reaches p) : p ∈ cells.map Prod.fst := by
  induction hp with
  | first hfirst =>
    have hchain := h.chain
    rw [hfirst] at hchain
    exact mem_of_start hchain
  | next hp hnode hnext ih =>
    obtain ⟨pre, ⟨k, i⟩, behind, rfl⟩ := split_of_mem ih
    obtain ⟨-, -, -, next, hview, hrest⟩ := chain_append.mp h.chain
    rw [view_eq_some hview] at hnode
    obtain rfl := Option.some.inj hnode
    rw [show next = some _ from hnext] at hrest
    rw [List.map_append, List.map_cons]
    exact List.mem_append.mpr (Or.inr (List.mem_cons_of_mem _ (mem_of_start hrest)))

/-- **The pointers of a list have its shape.** -/
theorem Links.shape (h : l.Links cells) : l.Shape (cells.map Prod.snd) := by
  constructor
  · rw [List.map_eq_nil_iff, ← h.isEmpty_iff, isEmpty, Option.isNone_iff_eq_none]
  · rw [h.last, Option.map_eq_none_iff, List.getLast?_eq_none_iff, List.map_eq_nil_iff]
  · intro p hlast
    rw [h.last] at hlast
    obtain ⟨⟨q, k, i⟩, hcell, rfl⟩ := Option.map_eq_some_iff.mp hlast
    obtain ⟨front, rfl⟩ := List.getLast?_eq_some_iff.mp hcell
    refine ⟨?_, ?_⟩
    · apply reaches_of_chain (fun p hp => .first hp) h.chain
      exact List.mem_map.mpr ⟨_, List.mem_append.mpr (Or.inr (List.mem_singleton_self _)), rfl⟩
    · obtain ⟨-, -, -, next, hview, hrest⟩ := chain_append.mp h.chain
      exact ⟨_, view_eq_some hview, hrest⟩
  · intro p node hp hnode hnext
    obtain ⟨pre, ⟨k, i⟩, behind, rfl⟩ := split_of_mem (h.mem_of_reaches hp)
    obtain ⟨-, -, -, next, hview, hrest⟩ := chain_append.mp h.chain
    rw [view_eq_some hview] at hnode
    obtain rfl := Option.some.inj hnode
    -- the chain behind `p` starts with NULL, so there is none
    have hstart := hrest.start
    rw [show next = none from hnext] at hstart
    have hnil : behind = [] := List.head?_eq_none_iff.mp (Option.map_eq_none_iff.mp hstart.symm)
    rw [h.last, hnil, List.getLast?_concat]
    rfl

end Shape

end LinkedList

/-! ## The order of the sorted calls -/

/-- The order of the members, each with the number of the call that inserted it: by keys, and of equal keys the earlier one
    first. -/
def Before (a b : Nat × Int × Item) : Prop := a.2.1 < b.2.1 ∨ a.2.1 = b.2.1 ∧ a.1 < b.1

/-- **The members stand in order**, and each was inserted by the call whose number it carries. -/
structure Stamped (made : List (ListCall Item)) (entries : List (Nat × Int × Item)) : Prop where
  inserted : ∀ e ∈ entries, made[e.1]? = some (.sortedInsert e.2.2 e.2.1)
  order : entries.Pairwise Before

namespace Stamped

variable {made : List (ListCall Item)} {entries : List (Nat × Int × Item)}

theorem lt (h : Stamped made entries) {e : Nat × Int × Item} (he : e ∈ entries) : e.1 < made.length :=
  (List.getElem?_eq_some_iff.mp (h.inserted e he)).1

/-- The calls made later do not change the numbers. -/
theorem later (h : Stamped made entries) (op : ListCall Item) : Stamped (made ++ [op]) entries := by
  refine ⟨?_, h.order⟩
  intro e he
  rw [List.getElem?_append_left (h.lt he)]
  exact h.inserted e he

/-- Behind a larger key there are only larger ones. -/
theorem key_lt {sortKey : Int} (h : entries.Pairwise Before) (hhead : ∀ e ∈ entries.head?, sortKey < e.2.1) :
    ∀ e ∈ entries, sortKey < e.2.1 := by
  cases entries with
  | nil =>
    intro e he
    exact absurd he List.not_mem_nil
  | cons x xs =>
    have hx : sortKey < x.2.1 := hhead x rfl
    obtain ⟨hbefore, -⟩ := List.pairwise_cons.mp h
    intro e he
    rcases List.mem_cons.mp he with rfl | he
    · exact hx
    · rcases hbefore e he with hlt | ⟨heq, -⟩
      · omega
      · omega

/-- **`SortedInsert`**: the new member has the largest number, and goes behind those with its key. -/
theorem sortedInsert {pre behind : List (Nat × Int × Item)} (h : Stamped made (pre ++ behind)) {item : Item}
    {sortKey : Int} (hpre : ∀ e ∈ pre, e.2.1 ≤ sortKey) (hbehind : ∀ e ∈ behind.head?, sortKey < e.2.1) :
    Stamped (made ++ [.sortedInsert item sortKey]) (pre ++ (made.length, sortKey, item) :: behind) := by
  obtain ⟨horder, horder', hacross⟩ := List.pairwise_append.mp h.order
  constructor
  · intro e he
    rcases List.mem_append.mp he with he | he
    · exact (h.later _).inserted e (List.mem_append.mpr (Or.inl he))
    · rcases List.mem_cons.mp he with rfl | he
      · rw [List.getElem?_concat_length]
      · exact (h.later _).inserted e (List.mem_append.mpr (Or.inr he))
  · refine List.pairwise_append.mpr ⟨horder, List.pairwise_cons.mpr ⟨?_, horder'⟩, ?_⟩
    · intro e he
      exact Or.inl (key_lt horder' hbehind e he)
    · intro e he e' he'
      rcases List.mem_cons.mp he' with rfl | he'
      · have hle := hpre e he
        have hlt := h.lt (List.mem_append.mpr (Or.inl he))
        rcases Int.lt_or_eq_of_le hle with hkey | hkey
        · exact Or.inl hkey
        · exact Or.inr ⟨hkey, hlt⟩
      · exact hacross e he e' he'

theorem tail (h : Stamped made entries) : Stamped made entries.tail :=
  ⟨fun e he => h.inserted e (List.mem_of_mem_tail he), h.order.sublist (List.tail_sublist _)⟩

/-- The first member comes before all others. -/
theorem head (h : Stamped made entries) : ∀ e ∈ entries.head?, ∀ e' ∈ entries, e' = e ∨ Before e e' := by
  cases entries with
  | nil =>
    intro e he
    exact absurd he (Option.not_mem_none _)
  | cons x xs =>
    obtain ⟨hbefore, -⟩ := List.pairwise_cons.mp h.order
    intro e he e' he'
    obtain rfl := Option.some.inj he
    rcases List.mem_cons.mp he' with rfl | he'
    · exact Or.inl rfl
    · exact Or.inr (hbefore e' he')

end Stamped

/-- **One sorted call** keeps the order. -/
theorem SeqCall.stamped {made : List (ListCall Item)} {xs xs' : List (Int × Item)} {op : ListCall Item}
    {r : ListReply Item} (hop : op.isSorted = true) (hcall : SeqCall xs op r xs')
    (h : ∃ entries, entries.map Prod.snd = xs ∧ Stamped made entries) :
    ∃ entries, entries.map Prod.snd = xs' ∧ Stamped (made ++ [op]) entries := by
  obtain ⟨entries, hentries, hstamped⟩ := h
  cases hcall with
  | append | prepend | remove => cases hop
  | sortedInsert hpre hbehind =>
    obtain ⟨pre, behind, rfl, rfl, rfl⟩ := List.map_eq_append_iff.mp hentries
    refine ⟨_, ?_, hstamped.sortedInsert ?_ ?_⟩
    · rw [List.map_append, List.map_cons]
    · intro e he
      exact hpre e.2 (List.mem_map_of_mem he)
    · intro e he
      refine hbehind e.2 ?_
      rw [List.head?_map]
      exact Option.mem_map_of_mem _ he
  | sortedRemove =>
    refine ⟨entries.tail, ?_, hstamped.tail.later _⟩
    rw [List.map_tail, hentries]

/-- **A LINKED LIST IS A SEQUENCE**: every list of calls on an empty list returns, with the replies of the sequence that the
    pointers then represent.  After sorted calls alone the sequence is sorted by keys, equal keys in the order of their
    insertion, and `SortedRemove` returns the first member of the smallest key. -/
theorem list_represents_sequence (ops : List (ListCall Item)) :
    ∃ replies l xs, Calls.runs LinkedList.call LinkedList.new ops = some (replies, l) ∧
      Calls.SpecRuns SeqCall [] ops replies xs ∧ l.Represents xs ∧ l.Shape xs ∧
      ((∀ op ∈ ops, op.isSorted = true) → ∃ entries, entries.map Prod.snd = xs ∧ Stamped ops entries ∧
        ∃ l', l.call .sortedRemove = some (.keyed (entries.head?.map Prod.snd), l') ∧
          ∀ e ∈ entries.head?, ∀ e' ∈ entries, e' = e ∨ Before e e') := by
  obtain ⟨replies, l, xs, hruns, hspec, hrep⟩ :=
    Calls.runs_refines LinkedList.call_refines ops LinkedList.Represents.new
  refine ⟨replies, l, xs, hruns, hspec, hrep, ?_, ?_⟩
  · obtain ⟨cells, hlinks, rfl⟩ := hrep
    exact hlinks.shape
  · intro hsorted
    have hnone : ∃ entries : List (Nat × Int × Item), entries.map Prod.snd = [] ∧ Stamped [] entries :=
      ⟨[], rfl, fun e he => absurd he List.not_mem_nil, List.Pairwise.nil⟩
    obtain ⟨entries, hentries, hstamped⟩ := hspec.history
      (I := fun made xs => ∃ entries : List (Nat × Int × Item), entries.map Prod.snd = xs ∧ Stamped made entries)
      (fun _ _ _ _ _ hop h hcall => hcall.stamped hop h) hsorted hnone
    obtain ⟨l', hremove, -⟩ := hrep.sortedRemove
    refine ⟨entries, hentries, hstamped, l', ?_, hstamped.head⟩
    rw [LinkedList.call, hremove, ← hentries, List.head?_map]
    rfl

end Nachos
