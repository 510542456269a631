/-
  A one-place buffer with its history: what was put into it, and what was taken out.

  Putting is possible when the place is empty and taking when it is full.  `Slot.Ok` — what was put is
  what was taken, followed by what is there — is kept by both, and from it follow the facts one wants
  of a buffer: nothing is taken twice, nothing out of order, nothing that was not put, nothing lost.
-/
import Mathlib.Data.List.Basic
import Mathlib.Data.Option.Basic

namespace Nachos

/-- The content of the buffer, and the history. -/
structure Slot (α : Type) where
  content : Option α
  putLog : List α
  takenLog : List α

namespace Slot

variable {α : Type}

/-- Nothing there, and nothing done so far. -/
def empty : Slot α := ⟨none, [], []⟩

/-- Put `x` there. -/
def put (s : Slot α) (x : α) : Slot α := { s with content := some x, putLog := s.putLog ++ [x] }

/-- Take `x` out. -/
def take (s : Slot α) (x : α) : Slot α := { s with content := none, takenLog := s.takenLog ++ [x] }

/-- What was put is what was taken, followed by what is there. -/
def Ok (s : Slot α) : Prop := s.putLog = s.takenLog ++ s.content.toList

theorem Ok.empty : (Slot.empty : Slot α).Ok := rfl

theorem Ok.put {s : Slot α} (h : s.Ok) (hnone : s.content = none) (x : α) : (s.put x).Ok := by
  unfold Ok at h ⊢
  rw [hnone, Option.toList_none, List.append_nil] at h
  show s.putLog ++ [x] = s.takenLog ++ [x]
  rw [h]

theorem Ok.take {s : Slot α} (h : s.Ok) {x : α} (hsome : s.content = some x) : (s.take x).Ok := by
  unfold Ok at h ⊢
  rw [hsome, Option.toList_some] at h
  show s.putLog = s.takenLog ++ [x] ++ []
  rw [List.append_nil]
  exact h

end Slot

end Nachos
