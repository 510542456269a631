/-
  `threads/synchlist.h`: lists that threads can wait on.

  A `SynchList` is a `List` with a lock and the condition `listEmpty` on it.  `Append` puts an item at
  the end and signals; `Remove` waits while the list is empty and takes the first item.  `List` itself
  (`threads/list.h`) is the sequence its links represent; its `Remove` gives back `Item()` when there is
  nothing to remove.

  The conditions of `synch.cc` let `Wait` come back without a signal, so what makes `Remove` right is
  its LOOP, and the lock between the last test and `list->Remove()`: a thread that is about to remove
  has seen that the list is not empty, and nobody else can have emptied it (`ListOk`).
-/
import Nachos.Threads.Service

set_option linter.unusedSectionVars false

namespace Nachos

/-! ## The code -/

/-- The operations; `Remove` answers with an item. -/
inductive ListOp (Item : Type) where
  | append (item : Item)
  | remove

/-- The points of `Append` and `Remove`: the calls of the lock and the condition, the test of the loop,
    and what is done to the list; `done` is the `return`. -/
inductive ListPt (Item : Type) where
  | appendAcquire (item : Item)
  | append (item : Item)
  | appendSignal
  | appendRelease
  | removeAcquire
  | removeTest
  | removeWait
  | remove
  | removeRelease (item : Item)
  | done (answer : Option Item)

/-- `SynchList::list`, and the history: the items appended and, with the thread that got them, the
    items removed. -/
structure ListData (Item : Type) where
  list : List Item
  appended : List Item
  removed : List (Tid × Item)

namespace ListData

variable {Item : Type} [Inhabited Item]

/-- `List::Append(item)`. -/
def append (d : ListData Item) (item : Item) : ListData Item :=
  { d with list := d.list ++ [item], appended := d.appended ++ [item] }

/-- What `List::Remove()` returns: `Item()` if nothing is on the list. -/
def first (d : ListData Item) : Item := d.list.headD default

/-- `List::Remove()`, called by `t`. -/
def remove (d : ListData Item) (t : Tid) : ListData Item :=
  { d with list := d.list.tail, removed := d.removed ++ [(t, d.first)] }

/-- The item that `t` got last. -/
def lastRemoved (d : ListData Item) (t : Tid) : Option Item := lastBy d.removed t

end ListData

variable {Item : Type} [Inhabited Item]

/-- The code of `Append` and `Remove`. -/
def synchListCode (t : Tid) : ListPt Item →
    SvcAct (Option Item) Unit Unit Empty (ListData Item) (ListPt Item)
  -- SynchList::Append
  | .appendAcquire item => .acquire () (.append item)
  | .append item => .tau fun d => some (d.append item, .appendSignal)
  | .appendSignal => .signal () .appendRelease
  | .appendRelease => .release () (.done none)
  -- SynchList::Remove
  | .removeAcquire => .acquire () .removeTest
  | .removeTest => .tau fun d => some (d, if d.list.isEmpty then .removeWait else .remove)
  | .removeWait => .wait () .removeTest
  | .remove => .tau fun d => some (d.remove t, .removeRelease d.first)
  | .removeRelease item => .release () (.done (some item))
  | .done answer => .ret answer

/-- A synchronized list, empty at first. -/
def synchList (Item : Type) [Inhabited Item] : Service (ListOp Item) (Option Item) Unit Unit Empty
    Empty (ListData Item) (ListPt Item) where
  lockOf _ := ()
  initial := nofun
  boot d := d = ⟨[], [], []⟩
  entry
    | .append item => .appendAcquire item
    | .remove => .removeAcquire
  code := synchListCode
  handler := nofun

/-! ## The lock -/

/-- The points between the return of `lock->Acquire()` and the call of `lock->Release()`. -/
def ListPt.locked : ListPt Item → Bool
  | .appendAcquire _ => false
  | .removeAcquire => false
  | .done _ => false
  | _ => true

theorem synchList_disciplined :
    (synchList Item).Disciplined fun pt _ => pt.locked = true where
  entry o l := by cases o <;> simp [synchList, ListPt.locked]
  acquire := by
    intro t pt l k hcode
    cases pt <;> cases hcode <;> simp [ListPt.locked]
  release := by
    intro t pt l k hcode
    cases pt <;> cases hcode <;> simp [ListPt.locked]
  keeps := by
    intro t pt k hkeeps l
    replace hkeeps : (synchListCode t pt).Keeps k := hkeeps
    cases pt with
    | append item =>
      obtain ⟨-, rfl⟩ := SvcAct.Keeps.of_some hkeeps
      exact Iff.rfl
    | removeTest =>
      obtain ⟨-, rfl⟩ := SvcAct.Keeps.of_some hkeeps
      split <;> exact Iff.rfl
    | remove =>
      obtain ⟨-, rfl⟩ := SvcAct.Keeps.of_some hkeeps
      exact Iff.rfl
    | _ => cases hkeeps <;> exact Iff.rfl
  ret := by
    intro t pt a hcode l
    cases pt <;> cases hcode
    simp [ListPt.locked]

/-! ## Items come out in the order they went in -/

/-- What is known at a point: a thread that is about to remove has seen an item on the list, and one
    that has removed is on its way out with what it got. -/
def ListPt.Ok (d : ListData Item) (t : Tid) : Option (ListPt Item) → Prop
  | some .remove => d.list ≠ []
  | some (.removeRelease item) => d.lastRemoved t = some item
  | some (.done (some item)) => d.lastRemoved t = some item
  | _ => True

/-- The invariant. -/
structure ListOk (v : SvcView Empty (ListData Item) (ListPt Item)) : Prop where
  fifo : v.dev.appended = v.dev.removed.map Prod.snd ++ v.dev.list
  pts : ∀ t, ListPt.Ok v.dev t (v.pts t)

namespace ListData

@[simp] theorem lastRemoved_append (d : ListData Item) (item : Item) (t : Tid) :
    (d.append item).lastRemoved t = d.lastRemoved t := rfl

@[simp] theorem lastRemoved_self (d : ListData Item) (t : Tid) :
    (d.remove t).lastRemoved t = some d.first := lastBy_concat_self _ _ _

theorem lastRemoved_of_ne (d : ListData Item) {t w : Tid} (h : w ≠ t) :
    (d.remove t).lastRemoved w = d.lastRemoved w := lastBy_concat_of_ne _ h _

end ListData

/-- `list->Append` takes nothing away. -/
theorem ListPt.Ok.append {d : ListData Item} {t : Tid} {p : Option (ListPt Item)}
    (h : ListPt.Ok d t p) (item : Item) : ListPt.Ok (d.append item) t p := by
  unfold ListPt.Ok at h ⊢
  split at h
  · simp [ListData.append]
  · exact h
  · exact h
  · trivial

/-- `list->Remove` by `t` leaves alone whoever is not about to remove. -/
theorem ListPt.Ok.remove {d : ListData Item} {t w : Tid} {p : Option (ListPt Item)}
    (h : ListPt.Ok d w p) (hw : w ≠ t) (hp : p ≠ some .remove) : ListPt.Ok (d.remove t) w p := by
  unfold ListPt.Ok at h ⊢
  split at h
  · exact absurd rfl hp
  · exact (d.lastRemoved_of_ne hw).trans h
  · exact (d.lastRemoved_of_ne hw).trans h
  · trivial

/-- No call returns to the removal. -/
theorem synchList_settled : (synchList Item).Settled .remove := by
  intro t pt h
  cases pt <;> cases h

/-- Step lemma. -/
theorem ListOk.step {held : ListPt Item → Unit → Prop} {calls : Tid → ListOp Item → Prop}
    {v v' : SvcView Empty (ListData Item) (ListPt Item)} {lab : Label Empty} (h : ListOk v)
    (hheld : held .remove ()) (hs : (synchList Item).Step held calls v lab v') : ListOk v' := by
  -- `t` goes to `p`, and what the points of the others say is still true
  have hmove : ∀ {t : Tid} {p : Option (ListPt Item)} {d : ListData Item},
      d.appended = d.removed.map Prod.snd ++ d.list → ListPt.Ok d t p →
      (∀ w, w ≠ t → ListPt.Ok d w (v.pts w)) → ListOk ((v.withDev d).goto t p) := by
    intro t p d hfifo hp hothers
    exact ⟨hfifo, SvcView.goto_forall (Q := ListPt.Ok d) hp hothers⟩
  cases hs with
  | @enter t o ht hcalls =>
    refine hmove h.fifo ?_ fun w _ => h.pts w
    cases o <;> exact trivial
  | leave ht hcode => exact hmove h.fifo trivial fun w _ => h.pts w
  | @call t pt k ht htarget =>
    refine hmove h.fifo ?_ fun w _ => h.pts w
    have hpt := h.pts t
    rw [ht] at hpt
    cases pt with
    | append item | removeTest | remove | done answer => cases htarget
    | removeRelease item => cases htarget; exact hpt
    | _ => cases htarget; exact trivial
  | @P t pt k x => exact x.elim
  | @intrV i => exact i.elim
  | @intr i => exact i.elim
  | @tau t pt k f d ht hcode hf halone =>
    cases pt with
    | append item =>
      cases hcode
      obtain ⟨rfl, rfl⟩ := Prod.mk.inj (Option.some.inj hf)
      refine hmove ?_ trivial fun w _ => (h.pts w).append item
      show v.dev.appended ++ [item] = v.dev.removed.map Prod.snd ++ (v.dev.list ++ [item])
      rw [h.fifo, List.append_assoc]
    | removeTest =>
      cases hcode
      obtain ⟨rfl, rfl⟩ := Prod.mk.inj (Option.some.inj hf)
      refine hmove h.fifo ?_ fun w _ => h.pts w
      split
      · exact trivial
      · rename_i hne
        intro hnil
        exact hne (List.isEmpty_iff.mpr hnil)
    | remove =>
      cases hcode
      obtain ⟨rfl, rfl⟩ := Prod.mk.inj (Option.some.inj hf)
      have hne : v.dev.list ≠ [] := by
        have hpt := h.pts t
        rw [ht] at hpt
        exact hpt
      refine hmove ?_ (v.dev.lastRemoved_self t) fun w hw => (h.pts w).remove hw fun hrem => ?_
      · obtain ⟨item, rest, hlist⟩ := List.exists_cons_of_ne_nil hne
        show v.dev.appended = (v.dev.removed ++ [(t, v.dev.first)]).map Prod.snd ++ v.dev.list.tail
        rw [h.fifo, hlist]
        simp [ListData.first, hlist]
      · -- whoever else is about to remove would hold the lock as well
        exact hw (halone w .remove () hrem synchList_settled hheld hheld)
    | _ => cases hcode

/-- Run lemma. -/
theorem listOk_of_reach {Sh Pc : Type} {u : UserClient (ListOp Item) (Option Item) Sh Pc}
    {s : ((synchList Item).client u).St} (hr : (machine ((synchList Item).client u).prog).Reach s) :
    ListOk ((synchList Item).view u s) := by
  refine (synchList_disciplined.reach_view hr).invariant (I := ListOk) ?_ ?_
  · rintro v ⟨hpts, hboot, -⟩
    have hdev : v.dev = ⟨[], [], []⟩ := hboot
    refine ⟨by rw [hdev]; rfl, fun t => ?_⟩
    rw [hpts]
    exact trivial
  · intro v lab v' _ hok hs
    exact hok.step rfl hs

/-- **A synchronized list is a queue.**  For every program, any number of threads and every
    interleaving: the items appended are the items removed, in the same order, followed by what is on
    the list; `list->Remove()` is never called on an empty list; and a thread comes out of `Remove`
    with the item it removed. -/
theorem synchList_fifo {Sh Pc : Type} {u : UserClient (ListOp Item) (Option Item) Sh Pc}
    {s : ((synchList Item).client u).St}
    (hr : (machine ((synchList Item).client u).prog).Reach s) :
    s.sh.client.dev.appended = s.sh.client.dev.removed.map Prod.snd ++ s.sh.client.dev.list ∧
    (∀ t k, (synchList Item).At u s t .remove k → s.sh.client.dev.list ≠ []) ∧
    (∀ t k item, (synchList Item).At u s t (.done (some item)) k →
      s.sh.client.dev.lastRemoved t = some item) := by
  have hok := listOk_of_reach hr
  refine ⟨hok.fifo, fun t k ht => ?_, fun t k item ht => ?_⟩
  · have hpt := hok.pts t
    rw [ht.pts] at hpt
    exact hpt
  · have hpt := hok.pts t
    rw [ht.pts] at hpt
    exact hpt

/-- Thread 0 appends 7 and the others remove. -/
def listClient : UserClient (ListOp Nat) (Option Nat) Unit Nat where
  boot _ ctl _ := ctl = fun _ => .atPc 0
  call t pc :=
    match pc with
    | 0 => .op (if t = 0 then .append 7 else .remove) fun _ => 1
    | _ => .finish id

/-- `listClient` after the steps of `ls`. -/
def listRun (ls : List (Label Empty)) : ((synchList Nat).client listClient).St :=
  Lts.replay (stepFn ((synchList Nat).client listClient).prog)
    ((synchList Nat).start listClient ⟨[], [], []⟩ () fun _ => .atPc 0) ls

theorem listRun_reach (ls : List (Label Empty)) :
    (machine ((synchList Nat).client listClient).prog).Reach (listRun ls) :=
  Lts.reach_replay machine_step (Service.start_reach rfl rfl) ls

/-- Thread 0 has appended 7, and thread 1 comes out of `Remove` with it. -/
theorem synchList_fifo_seven :
    let s := listRun (List.replicate 14 (.run 0) ++ List.replicate 13 (.run 1))
    s.sh.client.dev.appended = [7] ∧ (synchList Nat).At listClient s 1 (.done (some 7)) (fun _ => 1) ∧
      s.sh.client.dev.lastRemoved 1 = some 7 :=
  have hat : (synchList Nat).At listClient
      (listRun (List.replicate 14 (.run 0) ++ List.replicate 13 (.run 1))) 1 (.done (some 7))
      (fun _ => 1) := rfl
  ⟨by decide, hat, (synchList_fifo (listRun_reach _)).2.2 1 _ 7 hat⟩

end Nachos
