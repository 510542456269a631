/-
  `machine/console.cc`: the terminal.

  The keyboard is polled: when the buffer `incoming` is empty and the UNIX file has a character,
  `CheckCharAvail` reads it and interrupts; `GetChar` takes it out.  AN EMPTY BUFFER IS MARKED BY THE
  VALUE `EOF` IN THE BUFFER ITSELF.  `incoming` is a plain `char`, signed here, so `EOF` is stored as the
  byte 255 and a buffer with that byte looks empty (`charToInt_eq_eof`).

  The display takes one character at a time: `PutChar` writes it to the UNIX file and schedules an
  interrupt, and until `WriteDone` the display is busy.  The interrupts are named by the number of their
  character.

  `input` and `returned` are history: the stream as it arrives from the beginning, and what `GetChar`
  has returned.  The display remembers who has put each character, and which ones are done.
-/
import Nachos.Threads.Semaphore

namespace Nachos

/-! ## The keyboard -/

/-- A `char` in an expression: its value as an `int`. -/
def charToInt (c : UInt8) : Int := c.toBitVec.toInt

/-- `EOF`. -/
def eof : Int := -1

/-- An `int` assigned to a `char`. -/
def charOfInt (i : Int) : UInt8 := .ofBitVec (BitVec.ofInt 8 i)

/-- **One byte cannot be told from an empty buffer.** -/
theorem charToInt_eq_eof {c : UInt8} : charToInt c = eof ↔ c = charOfInt eof := by
  have heof : charToInt (charOfInt eof) = eof := by decide
  constructor
  · intro h
    have hbits : c.toBitVec = (charOfInt eof).toBitVec := BitVec.toInt_inj.mp (h.trans heof.symm)
    exact UInt8.toBitVec_inj.mp hbits
  · rintro rfl
    exact heof

/-- The keyboard: the buffer, and what is still to be read from the UNIX file. -/
structure Keyboard where
  incoming : UInt8
  stream : List UInt8
  input : List UInt8
  returned : List UInt8

namespace Keyboard

/-- A keyboard at which `input` will be typed. -/
def new (input : List UInt8) : Keyboard := ⟨charOfInt eof, input, input, []⟩

/-- `Console::CheckCharAvail`, `pollFile` being the answer of `PollFile`: whether the handler is
    called, and the keyboard afterwards. -/
def checkCharAvail (k : Keyboard) (pollFile : Bool) : Option (Bool × Keyboard) :=
  if charToInt k.incoming ≠ eof ∨ pollFile = false then some (false, k)
  else
    match k.stream with
    | [] => none
    | c :: rest => some (true, { k with incoming := c, stream := rest })

/-- What `Console::GetChar` leaves. -/
def getChar (k : Keyboard) : Keyboard :=
  { k with incoming := charOfInt eof, returned := k.returned ++ [k.incoming] }

end Keyboard

/-! ## The display -/

/-- The display: the characters written to the UNIX file, each with the thread that put it, the flag,
    the interrupts that are scheduled and those that were taken. -/
structure Display where
  shown : List (Tid × UInt8)
  putBusy : Bool
  pending : List Nat
  done : List Nat

namespace Display

/-- A blank display. -/
def new : Display := ⟨[], false, [], []⟩

/-- `Console::PutChar(ch)`, called by `t`; `none`: the `ASSERT` fails. -/
def putChar (d : Display) (t : Tid) (ch : UInt8) : Option Display :=
  if d.putBusy then none
  else
    some { d with
      shown := d.shown ++ [(t, ch)]
      putBusy := true
      pending := d.pending ++ [d.shown.length] }

/-- `Console::WriteDone`, for character number `n`. -/
def writeDone (d : Display) (n : Nat) : Option Display :=
  if n ∈ d.pending then
    some { d with putBusy := false, pending := d.pending.erase n, done := d.done ++ [n] }
  else none

/-- What `t` has put, in order. -/
def shownBy (d : Display) (t : Tid) : List UInt8 :=
  (d.shown.filter fun e => e.1 == t).map Prod.snd

end Display

end Nachos
