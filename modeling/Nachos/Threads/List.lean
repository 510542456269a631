/-
  `threads/list.h` — singly linked lists with a pointer to the last element.

  The elements of a list are in a memory of its own (no other list has a pointer to them): an address has an
  element until the element is deleted, and `new` takes an address that was not used before.  Following NULL or
  the address of a deleted element is an error (`none`).  The operations are those of the source, statement by
  statement; the loop of `SortedInsert` has a bound on its iterations, and the bound is never the reason that
  it ends.

  `Represents l xs` is what the pointers are to mean: `first` starts a chain through the elements with the keys
  and items `xs` that ends in NULL, and `last` is the last of them.  Every operation on a list that represents a
  sequence returns, and the list then represents

  * `append`         — the sequence with `(0, item)` behind it;
  * `prepend`        — the sequence with `(0, item)` before it;
  * `sortedInsert`   — the sequence with `(sortKey, item)` before the first larger key;
  * `sortedRemove`   — the sequence without its first member, which is what is returned.
-/
import Mathlib.Data.Finset.Card
import Mathlib.Data.List.Sort
import Nachos.Lib.Chain

namespace Nachos

/-! ## The code -/

/-- `class ListElement`; NULL is `none`. -/
structure ListElement (Item : Type) where
  next : Option Nat
  key : Int
  item : Item

/-- `class List`, with the memory of its elements and the address that `new` returns next. -/
structure LinkedList (Item : Type) where
  elements : Nat → Option (ListElement Item)
  fresh : Nat
  first : Option Nat
  last : Option Nat

namespace LinkedList

variable {Item : Type}

/-- `List::List()`. -/
def new : LinkedList Item := ⟨fun _ => none, 0, none, none⟩

/-- `new ListNode(item, sortKey)`, with `next` set to `next`. -/
def alloc (l : LinkedList Item) (next : Option Nat) (sortKey : Int) (item : Item) : LinkedList Item :=
  { l with
    elements := Function.update l.elements l.fresh (some ⟨next, sortKey, item⟩)
    fresh := l.fresh + 1 }

/-- `ptr->next = element`. -/
def setNext (l : LinkedList Item) (ptr : Nat) (element : Nat) : Option (LinkedList Item) :=
  (l.elements ptr).map fun node =>
    { l with elements := Function.update l.elements ptr (some { node with next := some element }) }

/-- `List::IsEmpty()`. -/
def isEmpty (l : LinkedList Item) : Bool := l.first.isNone

/-- The element is put at the end: `first = last = element`, or `last->next = element; last = element`. -/
def putLast (l : LinkedList Item) (sortKey : Int) (item : Item) : Option (LinkedList Item) :=
  let element := l.fresh
  if l.isEmpty then some { l.alloc none sortKey item with first := some element, last := some element }
  else l.last.bind fun last =>
    ((l.alloc none sortKey item).setNext last element).map fun l => { l with last := some element }

/-- `List::Append(item)`. -/
def append (l : LinkedList Item) (item : Item) : Option (LinkedList Item) := l.putLast 0 item

/-- The element is put at the front of a list that is not empty. -/
def putFirst (l : LinkedList Item) (sortKey : Int) (item : Item) : LinkedList Item :=
  { l.alloc l.first sortKey item with first := some l.fresh }

/-- `List::Prepend(item)`. -/
def prepend (l : LinkedList Item) (item : Item) : Option (LinkedList Item) :=
  if l.isEmpty then l.putLast 0 item else some (l.putFirst 0 item)

/-- The loop of `SortedInsert`, from `ptr`: the element behind which the new one goes, or `some none` if the
    loop comes to the end of the list. -/
def sortedLoop (l : LinkedList Item) (sortKey : Int) : Nat → Nat → Option (Option Nat)
  | 0, _ => none
  | n + 1, ptr =>
    (l.elements ptr).bind fun node =>
      match node.next with
      | none => some none
      | some next =>
        (l.elements next).bind fun nextNode =>
          if sortKey < nextNode.key then some (some ptr) else sortedLoop l sortKey n next

/-- `element->next = ptr->next; ptr->next = element`. -/
def putAfter (l : LinkedList Item) (ptr : Nat) (sortKey : Int) (item : Item) : Option (LinkedList Item) :=
  (l.elements ptr).bind fun node => (l.alloc node.next sortKey item).setNext ptr l.fresh

/-- `List::SortedInsert(item, sortKey)`. -/
def sortedInsert (l : LinkedList Item) (item : Item) (sortKey : Int) : Option (LinkedList Item) :=
  match l.first with
  | none => l.putLast sortKey item
  | some first =>
    (l.elements first).bind fun node =>
      if sortKey < node.key then some (l.putFirst sortKey item)
      else
        (l.sortedLoop sortKey l.fresh first).bind fun found =>
          match found with
          | some ptr => l.putAfter ptr sortKey item
          | none => l.putLast sortKey item

/-- `List::SortedRemove(keyPtr)`: the key and the item, or NULL. -/
def sortedRemove (l : LinkedList Item) : Option (Option (Int × Item) × LinkedList Item) :=
  match l.first with
  | none => some (none, l)
  | some first =>
    (l.elements first).map fun element =>
      (some (element.key, element.item),
        { l with
          elements := Function.update l.elements first none
          first := if l.first = l.last then none else element.next
          last := if l.first = l.last then none else l.last })

/-- `List::Remove()`. -/
def remove (l : LinkedList Item) : Option (Option Item × LinkedList Item) :=
  l.sortedRemove.map fun r => (r.1.map Prod.snd, r.2)

/-! ## What the pointers mean -/

/-- What is at an address: where it points, and the key and the item. -/
def view (elements : Nat → Option (ListElement Item)) (p : Nat) : Option (Option Nat × Int × Item) :=
  (elements p).map fun node => (node.next, node.key, node.item)

/-- The pointers of a list, with the addresses of the elements. -/
structure Links (l : LinkedList Item) (cells : List (Nat × Int × Item)) : Prop where
  chain : Chain (view l.elements) l.first cells none
  last : l.last = cells.getLast?.map Prod.fst
  nodup : (cells.map Prod.fst).Nodup
  below : ∀ p ∈ cells.map Prod.fst, p < l.fresh

/-- **The list represents a sequence** of keys and items. -/
def Represents (l : LinkedList Item) (xs : List (Int × Item)) : Prop :=
  ∃ cells, l.Links cells ∧ cells.map Prod.snd = xs

variable {l l' : LinkedList Item} {cells cells' : List (Nat × Int × Item)} {xs : List (Int × Item)}
  {sortKey k : Int} {item i : Item} {p : Nat}

theorem view_update (elements : Nat → Option (ListElement Item)) (p : Nat) (o : Option (ListElement Item)) :
    view (Function.update elements p o)
      = Function.update (view elements) p (o.map fun node => (node.next, node.key, node.item)) :=
  Function.comp_update (Option.map fun node : ListElement Item => (node.next, node.key, node.item)) elements p o

theorem view_eq_some {n : Option Nat} (h : view l.elements p = some (n, k, i)) :
    l.elements p = some ⟨n, k, i⟩ := by
  obtain ⟨node, hnode, heq⟩ := Option.map_eq_some_iff.mp h
  cases heq
  exact hnode

namespace Links

theorem new : (LinkedList.new : LinkedList Item).Links [] :=
  ⟨rfl, rfl, List.nodup_nil, fun _ hp => absurd hp List.not_mem_nil⟩

/-- The address that `new` returns is that of no element. -/
theorem fresh (h : l.Links cells) : l.fresh ∉ cells.map Prod.fst := fun hmem =>
  Nat.lt_irrefl _ (h.below _ hmem)

theorem isEmpty_iff (h : l.Links cells) : l.isEmpty = true ↔ cells = [] := by
  rw [isEmpty, h.chain.start]
  cases cells with
  | nil => exact ⟨fun _ => rfl, fun _ => rfl⟩
  | cons cell cells =>
    constructor
    · intro hnone
      cases hnone
    · intro hnil
      cases hnil

/-- What addresses are used after one more was. -/
theorem below_cons (h : l.Links cells) {q : Nat} (hq : q = l.fresh ∨ q ∈ cells.map Prod.fst) :
    q < l.fresh + 1 := by
  rcases hq with rfl | hq
  · exact Nat.lt_succ_self _
  · exact Nat.lt_succ_of_lt (h.below q hq)

/-- The first element. -/
theorem putFirst (h : l.Links cells) (hne : cells ≠ []) (sortKey : Int) (item : Item) :
    (l.putFirst sortKey item).Links ((l.fresh, sortKey, item) :: cells) := by
  refine ⟨⟨rfl, l.first, ?_, ?_⟩, ?_, List.nodup_cons.mpr ⟨h.fresh, h.nodup⟩, fun q hq => ?_⟩
  · show view (Function.update _ _ _) l.fresh = _
    rw [view_update, Function.update_self]
    rfl
  · show Chain (view (Function.update _ _ _)) _ _ _
    rw [view_update]
    exact h.chain.update h.fresh _
  · rw [List.getLast?_cons_of_ne_nil hne]
    exact h.last
  · exact h.below_cons (List.mem_cons.mp hq)

/-- **A new element behind another one**, which `last` has to be set for. -/
theorem link (h : l.Links (cells ++ (p, k, i) :: cells')) (sortKey : Int) (item : Item) :
    ∃ n l', l.elements p = some ⟨n, k, i⟩ ∧ (cells' = [] → n = none) ∧
      (l.alloc n sortKey item).setNext p l.fresh = some l' ∧ l'.last = l.last ∧
      ∀ last, last = (cells ++ (p, k, i) :: (l.fresh, sortKey, item) :: cells').getLast?.map Prod.fst →
        Links { l' with last := last } (cells ++ (p, k, i) :: (l.fresh, sortKey, item) :: cells') := by
  have hin : (p, k, i) ∈ cells ++ (p, k, i) :: cells' :=
    List.mem_append.mpr (Or.inr (List.mem_cons_self ..))
  obtain ⟨n, hview⟩ := h.chain.exists_of_mem hin
  have hnode := view_eq_some hview
  have hpne : p ≠ l.fresh := by
    rintro rfl
    exact h.fresh (List.mem_map.mpr ⟨_, hin, rfl⟩)
  have hnode' : (l.alloc n sortKey item).elements p = some ⟨n, k, i⟩ := by
    show Function.update _ _ _ p = _
    rw [Function.update_of_ne hpne, hnode]
  refine ⟨n, { l.alloc n sortKey item with
      elements := Function.update (l.alloc n sortKey item).elements p (some ⟨some l.fresh, k, i⟩) },
    hnode, fun hnil => ?_, by rw [setNext, hnode', Option.map_some], rfl,
    fun last hlast => ⟨?_, hlast, ?_, fun q hq => ?_⟩⟩
  · -- the chain ends behind `p`
    obtain ⟨-, -, -, n', hview', hrest⟩ := chain_append.mp h.chain
    rw [hnil] at hrest
    rw [hview] at hview'
    exact (congrArg Prod.fst (Option.some.inj hview')).trans hrest
  · show Chain (view (Function.update (Function.update _ _ _) _ _)) _ _ _
    rw [view_update, view_update]
    exact h.chain.insert hview h.nodup h.fresh
  · -- a permutation of the old addresses with the new one
    have hmove : cells ++ (p, k, i) :: (l.fresh, sortKey, item) :: cells'
        = (cells ++ [(p, k, i)]) ++ (l.fresh, sortKey, item) :: cells' := by simp
    have hback : cells ++ (p, k, i) :: cells' = (cells ++ [(p, k, i)]) ++ cells' := by simp
    have hperm : (cells ++ (p, k, i) :: (l.fresh, sortKey, item) :: cells').Perm
        ((l.fresh, sortKey, item) :: (cells ++ (p, k, i) :: cells')) := by
      rw [hmove, hback]
      exact List.perm_middle
    exact ((hperm.map Prod.fst).nodup_iff).mpr (List.nodup_cons.mpr ⟨h.fresh, h.nodup⟩)
  · apply h.below_cons
    simp only [List.map_append, List.map_cons, List.mem_append, List.mem_cons] at hq ⊢
    rcases hq with hq | hq | hq | hq
    · exact Or.inr (Or.inl hq)
    · exact Or.inr (Or.inr (Or.inl hq))
    · exact Or.inl hq
    · exact Or.inr (Or.inr (Or.inr hq))

/-- An element in the middle. -/
theorem putAfter (h : l.Links (cells ++ (p, k, i) :: cells')) (hne : cells' ≠ []) (sortKey : Int)
    (item : Item) :
    ∃ l', l.putAfter p sortKey item = some l' ∧
      l'.Links (cells ++ (p, k, i) :: (l.fresh, sortKey, item) :: cells') := by
  obtain ⟨n, l', hnode, -, hset, hlast', hlinks⟩ := h.link sortKey item
  refine ⟨l', by rw [LinkedList.putAfter, hnode, Option.bind_some, hset], hlinks l'.last ?_⟩
  have hlast := h.last
  rw [List.getLast?_append_of_ne_nil _ (List.cons_ne_nil _ _), List.getLast?_cons_of_ne_nil hne] at hlast
  rw [hlast', hlast, List.getLast?_append_of_ne_nil _ (List.cons_ne_nil _ _),
    List.getLast?_cons_of_ne_nil (List.cons_ne_nil _ _), List.getLast?_cons_of_ne_nil hne]

/-- The last element. -/
theorem putLast (h : l.Links cells) (sortKey : Int) (item : Item) :
    ∃ l', l.putLast sortKey item = some l' ∧ l'.Links (cells ++ [(l.fresh, sortKey, item)]) := by
  rcases List.eq_nil_or_concat cells with rfl | ⟨front, ⟨q, k, i⟩, rfl⟩
  · have hempty : l.isEmpty = true := h.isEmpty_iff.mpr rfl
    refine ⟨_, by rw [LinkedList.putLast, if_pos hempty], ⟨rfl, none, ?_, rfl⟩, rfl,
      List.nodup_singleton _, fun q hq => ?_⟩
    · show view (Function.update _ _ _) l.fresh = _
      rw [view_update, Function.update_self]
      rfl
    · exact h.below_cons (List.mem_cons.mp hq)
  · have hempty : ¬ l.isEmpty = true := by
      rw [h.isEmpty_iff, List.concat_eq_append]
      exact List.append_ne_nil_of_right_ne_nil _ (List.cons_ne_nil _ _)
    have hlast : l.last = some q := by
      rw [h.last, List.concat_eq_append, List.getLast?_concat]
      rfl
    rw [List.concat_eq_append] at h ⊢
    obtain ⟨n, l', hnode, hend, hset, -, hlinks⟩ := h.link sortKey item
    rw [hend rfl] at hset
    refine ⟨_, by rw [LinkedList.putLast, if_neg hempty, hlast, Option.bind_some, hset, Option.map_some], ?_⟩
    have happend : front ++ [(q, k, i)] ++ [(l.fresh, sortKey, item)]
        = front ++ (q, k, i) :: [(l.fresh, sortKey, item)] := by simp
    rw [happend]
    apply hlinks
    rw [List.getLast?_append_of_ne_nil _ (List.cons_ne_nil _ _)]
    rfl

/-- **The loop of `SortedInsert`** stops at the last element before the first larger key. -/
theorem sortedLoop (sortKey : Int) :
    ∀ (n : Nat) {p : Nat} {x : Int × Item} {cells : List (Nat × Int × Item)},
      Chain (view l.elements) (some p) ((p, x) :: cells) none → cells.length < n →
      (∃ front q y pre c behind, cells = pre ++ c :: behind ∧ (p, x) :: pre = front ++ [(q, y)] ∧
          (∀ d ∈ pre, d.2.1 ≤ sortKey) ∧ sortKey < c.2.1 ∧ l.sortedLoop sortKey n p = some (some q)) ∨
        ((∀ d ∈ cells, d.2.1 ≤ sortKey) ∧ l.sortedLoop sortKey n p = some none) := by
  intro n
  induction n with
  | zero =>
    intro p x cells _ hn
    exact absurd hn (Nat.not_lt_zero _)
  | succ n ih =>
    rintro p ⟨k, i⟩ cells ⟨-, next, hview, hrest⟩ hn
    have hnode := view_eq_some hview
    cases cells with
    | nil =>
      obtain rfl : next = none := hrest
      refine Or.inr ⟨fun d hd => absurd hd List.not_mem_nil, ?_⟩
      simp only [LinkedList.sortedLoop, hnode, Option.bind_some]
    | cons cell cells =>
      obtain ⟨q, k', i'⟩ := cell
      have htail := hrest
      obtain ⟨rfl, next', hview', -⟩ := hrest
      have hnode' := view_eq_some hview'
      by_cases hlt : sortKey < k'
      · refine Or.inl ⟨[], p, (k, i), [], (q, k', i'), cells, rfl, rfl, ?_, hlt, ?_⟩
        · intro d hd
          exact absurd hd List.not_mem_nil
        · simp only [LinkedList.sortedLoop, hnode, Option.bind_some, hnode', if_pos hlt]
      · have hloop : l.sortedLoop sortKey (n + 1) p = l.sortedLoop sortKey n q := by
          simp only [LinkedList.sortedLoop, hnode, Option.bind_some, hnode', if_neg hlt]
        rw [hloop]
        rw [List.length_cons] at hn
        rcases ih htail (by omega) with
          ⟨front, q', y, pre, c, behind, hcells, hfront, hle, hc, hfound⟩ | ⟨hle, hend⟩
        · refine Or.inl ⟨(p, k, i) :: front, q', y, (q, k', i') :: pre, c, behind, ?_, ?_, ?_, hc, hfound⟩
          · rw [hcells]
            rfl
          · rw [hfront]
            rfl
          · exact List.forall_mem_cons.mpr ⟨Int.not_lt.mp hlt, hle⟩
        · exact Or.inr ⟨List.forall_mem_cons.mpr ⟨Int.not_lt.mp hlt, hle⟩, hend⟩

/-- There are at most as many elements as addresses that were used. -/
theorem length_le (h : l.Links cells) : cells.length ≤ l.fresh := by
  have hsub : (cells.map Prod.fst).toFinset ⊆ Finset.range l.fresh := by
    intro p hp
    exact Finset.mem_range.mpr (h.below p (List.mem_toFinset.mp hp))
  have hcard := Finset.card_le_card hsub
  rw [List.toFinset_card_of_nodup h.nodup, List.length_map, Finset.card_range] at hcard
  exact hcard

end Links

/-! ## The operations -/

namespace Represents

theorem new : (LinkedList.new : LinkedList Item).Represents [] := ⟨[], .new, rfl⟩

/-- The pointers mean one sequence. -/
theorem unique {ys : List (Int × Item)} (h : l.Represents xs) (h' : l.Represents ys) : xs = ys := by
  obtain ⟨cells, hlinks, rfl⟩ := h
  obtain ⟨cells', hlinks', rfl⟩ := h'
  rw [hlinks.chain.unique hlinks'.chain]

/-- `IsEmpty`. -/
theorem isEmpty_iff (h : l.Represents xs) : l.isEmpty = true ↔ xs = [] := by
  obtain ⟨cells, hlinks, rfl⟩ := h
  rw [hlinks.isEmpty_iff, List.map_eq_nil_iff]

theorem putLast (h : l.Represents xs) (sortKey : Int) (item : Item) :
    ∃ l', l.putLast sortKey item = some l' ∧ l'.Represents (xs ++ [(sortKey, item)]) := by
  obtain ⟨cells, hlinks, rfl⟩ := h
  obtain ⟨l', hput, hlinks'⟩ := hlinks.putLast sortKey item
  refine ⟨l', hput, _, hlinks', ?_⟩
  rw [List.map_append]
  rfl

/-- **`Append`.** -/
theorem append (h : l.Represents xs) (item : Item) :
    ∃ l', l.append item = some l' ∧ l'.Represents (xs ++ [(0, item)]) := h.putLast 0 item

/-- **`Prepend`.** -/
theorem prepend (h : l.Represents xs) (item : Item) :
    ∃ l', l.prepend item = some l' ∧ l'.Represents ((0, item) :: xs) := by
  by_cases hempty : l.isEmpty = true
  · obtain ⟨l', hput, hrep⟩ := h.putLast 0 item
    rw [h.isEmpty_iff.mp hempty] at hrep
    rw [h.isEmpty_iff.mp hempty]
    exact ⟨l', by rw [LinkedList.prepend, if_pos hempty, hput], hrep⟩
  · obtain ⟨cells, hlinks, rfl⟩ := h
    have hne : cells ≠ [] := fun hnil => hempty (hlinks.isEmpty_iff.mpr hnil)
    exact ⟨_, by rw [LinkedList.prepend, if_neg hempty], _, hlinks.putFirst hne 0 item, rfl⟩

/-- **`SortedRemove`.** -/
theorem sortedRemove (h : l.Represents xs) :
    ∃ l', l.sortedRemove = some (xs.head?, l') ∧ l'.Represents xs.tail := by
  obtain ⟨cells, hlinks, rfl⟩ := h
  cases cells with
  | nil =>
    have hfirst : l.first = none := hlinks.chain
    exact ⟨l, by simp only [LinkedList.sortedRemove, hfirst]; rfl, [], hlinks, rfl⟩
  | cons cell cells =>
    obtain ⟨p, k, i⟩ := cell
    obtain ⟨hfirst, next, hview, hrest⟩ := hlinks.chain
    have hnode := view_eq_some hview
    obtain ⟨hnot, hnodup⟩ := List.nodup_cons.mp hlinks.nodup
    have hchain : Chain (view (Function.update l.elements p none)) next cells none := by
      rw [view_update]
      exact hrest.update hnot _
    -- `first == last` exactly if there is one element
    have hlast : l.first = l.last ↔ cells = [] := by
      rw [hfirst, hlinks.last]
      rcases List.eq_nil_or_concat cells with rfl | ⟨front, ⟨q, y⟩, rfl⟩
      · exact ⟨fun _ => rfl, fun _ => rfl⟩
      · rw [List.concat_eq_append, ← List.cons_append, List.getLast?_concat]
        constructor
        · intro heq
          refine absurd (List.mem_map.mpr ⟨(q, y), ?_, ?_⟩) hnot
          · rw [List.concat_eq_append]
            exact List.mem_append.mpr (Or.inr (List.mem_singleton_self _))
          · exact (Option.some.inj heq).symm
        · intro hnil
          exact absurd hnil (List.append_ne_nil_of_right_ne_nil _ (List.cons_ne_nil _ _))
    refine ⟨{ l with
        elements := Function.update l.elements p none
        first := if l.first = l.last then none else next
        last := if l.first = l.last then none else l.last }, ?_, cells, ?_, rfl⟩
    · simp only [LinkedList.sortedRemove, hfirst, hnode, Option.map_some]
      rfl
    · by_cases hone : l.first = l.last
      · have hnil := hlast.mp hone
        subst hnil
        refine ⟨?_, ?_, List.nodup_nil, fun q hq => absurd hq List.not_mem_nil⟩
        · exact if_pos hone
        · exact if_pos hone
      · have hne : cells ≠ [] := fun hnil => hone (hlast.mpr hnil)
        refine ⟨?_, ?_, hnodup, fun q hq => hlinks.below q (List.mem_cons_of_mem _ hq)⟩
        · show Chain _ (if _ then _ else _) _ _
          rw [if_neg hone]
          exact hchain
        · show (if _ then _ else _) = _
          rw [if_neg hone, hlinks.last, List.getLast?_cons_of_ne_nil hne]

/-- **`Remove`.** -/
theorem remove (h : l.Represents xs) :
    ∃ l', l.remove = some (xs.head?.map Prod.snd, l') ∧ l'.Represents xs.tail := by
  obtain ⟨l', hremove, hrep⟩ := h.sortedRemove
  exact ⟨l', by rw [LinkedList.remove, hremove]; rfl, hrep⟩

end Represents

/-- An item is put before the first larger key, so behind those with the same key. -/
abbrev insertSorted (x : Int × Item) (xs : List (Int × Item)) : List (Int × Item) :=
  xs.orderedInsert (fun x y => x.1 < y.1) x

theorem insertSorted_append {x : Int × Item} {pre behind : List (Int × Item)}
    (hpre : ∀ y ∈ pre, y.1 ≤ x.1) (hbehind : ∀ y ∈ behind.head?, x.1 < y.1) :
    insertSorted x (pre ++ behind) = pre ++ x :: behind := by
  induction pre with
  | nil =>
    cases behind with
    | nil => rfl
    | cons y behind =>
      have hlt : x.1 < y.1 := hbehind y rfl
      show (if x.1 < y.1 then _ else _) = _
      rw [if_pos hlt]
      rfl
  | cons y pre ih =>
    have hge : ¬ x.1 < y.1 := Int.not_lt.mpr (hpre y (List.mem_cons_self ..))
    show (if x.1 < y.1 then _ else _) = _
    rw [if_neg hge]
    refine congrArg (y :: ·) (ih fun z hz => ?_)
    exact hpre z (List.mem_cons_of_mem _ hz)

theorem pairwise_insertSorted {x : Int × Item} {xs : List (Int × Item)} (h : xs.Pairwise fun y z => y.1 ≤ z.1) :
    (insertSorted x xs).Pairwise fun y z => y.1 ≤ z.1 := by
  induction xs with
  | nil => exact List.pairwise_singleton _ _
  | cons y xs ih =>
    obtain ⟨hy, hxs⟩ := List.pairwise_cons.mp h
    show (if x.1 < y.1 then x :: y :: xs else y :: insertSorted x xs).Pairwise _
    split
    · rename_i hlt
      refine List.pairwise_cons.mpr ⟨fun z hz => ?_, h⟩
      rcases List.mem_cons.mp hz with rfl | hz
      · exact Int.le_of_lt hlt
      · have := hy z hz
        omega
    · rename_i hge
      refine List.pairwise_cons.mpr ⟨fun z hz => ?_, ih hxs⟩
      rcases List.mem_cons.mp ((List.perm_orderedInsert _ x xs).mem_iff.mp hz) with rfl | hz
      · omega
      · exact hy z hz

/-- **`SortedInsert`.** -/
theorem Represents.sortedInsert (h : l.Represents xs) (item : Item) (sortKey : Int) :
    ∃ l', l.sortedInsert item sortKey = some l' ∧ l'.Represents (insertSorted (sortKey, item) xs) := by
  obtain ⟨cells, hlinks, rfl⟩ := h
  cases cells with
  | nil =>
    have hfirst : l.first = none := hlinks.chain
    obtain ⟨l', hput, hlinks'⟩ := hlinks.putLast sortKey item
    exact ⟨l', by simp only [LinkedList.sortedInsert, hfirst, hput], _, hlinks', rfl⟩
  | cons cell cells =>
    obtain ⟨p, k, i⟩ := cell
    have hchain := hlinks.chain
    obtain ⟨hfirst, next, hview, -⟩ := hlinks.chain
    have hnode := view_eq_some hview
    by_cases hlt : sortKey < k
    · -- before the first element
      refine ⟨l.putFirst sortKey item, ?_, _, hlinks.putFirst (List.cons_ne_nil _ _) sortKey item, ?_⟩
      · simp only [LinkedList.sortedInsert, hfirst, hnode, Option.bind_some, if_pos hlt]
      · exact (insertSorted_append (fun _ hy => absurd hy List.not_mem_nil)
          fun y hy => by obtain rfl := Option.some.inj hy; exact hlt).symm
    · rw [hfirst] at hchain
      have hlen := hlinks.length_le
      rw [List.length_cons] at hlen
      have hinsert : l.sortedInsert item sortKey = (l.sortedLoop sortKey l.fresh p).bind fun found =>
          match found with
          | some ptr => l.putAfter ptr sortKey item
          | none => l.putLast sortKey item := by
        simp only [LinkedList.sortedInsert, hfirst, hnode, Option.bind_some, if_neg hlt]
      rw [hinsert]
      rcases Links.sortedLoop sortKey l.fresh hchain (by omega) with
        ⟨front, q, y, pre, c, behind, hcells, hfront, hle, hc, hfound⟩ | ⟨hle, hend⟩
      · have hsplit : (p, k, i) :: cells = front ++ (q, y) :: (c :: behind) := by
          rw [hcells, ← List.cons_append, hfront, List.append_assoc]
          rfl
        rw [hsplit] at hlinks
        obtain ⟨l', hput, hlinks'⟩ := hlinks.putAfter (List.cons_ne_nil _ _) sortKey item
        refine ⟨l', by rw [hfound]; exact hput, _, hlinks', ?_⟩
        have hmap : ((p, k, i) :: cells).map Prod.snd
            = ((p, k, i) :: pre).map Prod.snd ++ (c :: behind).map Prod.snd := by
          rw [← List.map_append, hcells]
          rfl
        rw [hmap, insertSorted_append, hfront]
        · simp only [List.map_append, List.map_cons, List.map_nil, List.append_assoc, List.cons_append,
            List.nil_append]
        · intro z hz
          obtain ⟨d, hd, rfl⟩ := List.mem_map.mp hz
          rcases List.mem_cons.mp hd with rfl | hd
          · exact Int.not_lt.mp hlt
          · exact hle d hd
        · intro z hz
          obtain rfl := Option.some.inj hz
          exact hc
      · obtain ⟨l', hput, hlinks'⟩ := hlinks.putLast sortKey item
        refine ⟨l', by rw [hend]; exact hput, _, hlinks', ?_⟩
        have hall : ∀ z ∈ ((p, k, i) :: cells).map Prod.snd, z.1 ≤ sortKey := by
          intro z hz
          obtain ⟨d, hd, rfl⟩ := List.mem_map.mp hz
          rcases List.mem_cons.mp hd with rfl | hd
          · exact Int.not_lt.mp hlt
          · exact hle d hd
        have hinsert' := insertSorted_append (x := (sortKey, item)) hall
          (show ∀ z ∈ ([] : List (Int × Item)).head?, sortKey < z.1 from fun z hz => by cases hz)
        rw [List.append_nil] at hinsert'
        rw [hinsert', List.map_append]
        rfl

end LinkedList

end Nachos
