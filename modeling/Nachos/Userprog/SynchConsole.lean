/-
  `userprog/SynchConsole.cc` and the console part of `SC_Write`: reading and writing characters.

  `readConsole` takes the lock `rLock`, waits on the semaphore `cread` that the keyboard's interrupt does
  `V` on, and takes the character out of the buffer.  `writeConsole` takes `wLock`, puts a character on the
  display, and waits on `cwrite` for the interrupt of the display.  `SC_Write` to `ConsoleOutput` calls it
  for every character of the buffer it has copied from the user.

  Programs here read and write at will, in any number of threads; a process is a thread.

  1. **Input** — every `V` on `cread` stands for one character that was read from the stream and not
     returned yet (`Takers`).  If the buffer is overwritten only while it is empty, that is at most one
     character and it is in the buffer.  The buffer looks empty when it has the byte 255; so
     `readConsole` returns a prefix of the stream when in the stream nothing but 255 follows a 255
     (`returnsPrefix_of_reach`), and it need not when a 255 is followed by something else
     (`reader_loses`).

  2. **Output** — the display is a device that takes one request at a time (`Requests`), and what a
     process has put on it is what it asked for, up to the character it is at (`DisplayOk`).
-/
import Mathlib.Data.List.Induction
import Nachos.Lib.Request
import Nachos.Machine.Console
import Nachos.Threads.Service

namespace Nachos

/-! ## The code -/

/-- The operations: `SynchConsole::readConsole`, and `SC_Write` of a buffer to `ConsoleOutput`. -/
inductive ConsoleOp where
  | readConsole
  | write (buffer : List UInt8)

/-- What they return: a character, or the number of bytes written. -/
inductive ConsoleAns where
  | char (cc : UInt8)
  | bytes (n : Nat)

inductive ConsoleLock where
  | rLock
  | wLock
  deriving DecidableEq

inductive ConsoleSem where
  | cread
  | cwrite
  deriving DecidableEq

/-- The interrupts: the poll of the keyboard, with the answer of `PollFile`, and the end of the output
    of character number `n`. -/
inductive ConsoleIntr where
  | checkCharAvail (pollFile : Bool)
  | writeDone (n : Nat)

/-- The points of `readConsole`, and those of the loop of `SC_Write` with `writeConsole` in it: `rest` is
    what is left of the buffer, `bytes` the count, `n` the number of the character on the display. -/
inductive ConsolePt where
  | readAcquire
  | readP
  | getChar
  | readRelease (cc : UInt8)
  | readDone (cc : UInt8)
  | writeStart (buffer : List UInt8)
  | writeLoop (rest : List UInt8) (bytes : Nat)
  | writeAcquire (c : UInt8) (rest : List UInt8) (bytes : Nat)
  | putChar (c : UInt8) (rest : List UInt8) (bytes : Nat)
  | writeP (c : UInt8) (n : Nat) (rest : List UInt8) (bytes : Nat)
  | writeRelease (c : UInt8) (n : Nat) (rest : List UInt8) (bytes : Nat)
  | writeDone (bytes : Nat)

/-- The terminal, and the history: the buffers of every process's `SC_Write` calls, and the characters that
    `readConsole` took from the keyboard, with the thread that called it. -/
structure ConsoleData where
  kbd : Keyboard
  out : Display
  calls : Tid → List (List UInt8)
  reads : List (Tid × UInt8)

/-- The code of thread `t`. -/
def synchConsoleCode (t : Tid) : ConsolePt →
    SvcAct ConsoleAns ConsoleLock Empty ConsoleSem ConsoleData ConsolePt
  -- SynchConsole::readConsole
  | .readAcquire => .acquire .rLock .readP
  | .readP => .P .cread .getChar
  | .getChar => .tau fun d =>
      some ({ d with kbd := d.kbd.getChar, reads := d.reads ++ [(t, d.kbd.incoming)] }, .readRelease d.kbd.incoming)
  | .readRelease cc => .release .rLock (.readDone cc)
  | .readDone cc => .ret (.char cc)
  -- SC_Write to ConsoleOutput
  | .writeStart buffer => .tau fun d =>
      some ({ d with calls := Function.update d.calls t (d.calls t ++ [buffer]) }, .writeLoop buffer 0)
  | .writeLoop [] bytes => .tau fun d => some (d, .writeDone bytes)
  | .writeLoop (c :: rest) bytes => .tau fun d => some (d, .writeAcquire c rest bytes)
  -- SynchConsole::writeConsole
  | .writeAcquire c rest bytes => .acquire .wLock (.putChar c rest bytes)
  | .putChar c rest bytes => .tau fun d => (d.out.putChar t c).map fun out =>
      ({ d with out := out }, .writeP c d.out.shown.length rest bytes)
  | .writeP c n rest bytes => .P .cwrite (.writeRelease c n rest bytes)
  | .writeRelease _ _ rest bytes => .release .wLock (.writeLoop rest (bytes + 1))
  | .writeDone bytes => .ret (.bytes bytes)

/-- The synchronous console, over any input. -/
def synchConsole : Service ConsoleOp ConsoleAns ConsoleLock Empty ConsoleSem ConsoleIntr ConsoleData
    ConsolePt where
  lockOf := nofun
  initial _ := 0
  boot d := d.kbd = .new d.kbd.input ∧ d.out = .new ∧ (d.calls = fun _ => []) ∧ d.reads = []
  entry
    | .readConsole => .readAcquire
    | .write buffer => .writeStart buffer
  code := synchConsoleCode
  handler
    | .checkCharAvail pollFile, d => (d.kbd.checkCharAvail pollFile).map fun r =>
        (if r.1 then some .cread else none, { d with kbd := r.2 })
    | .writeDone n, d => (d.out.writeDone n).map fun out => (some .cwrite, { d with out := out })

/-! ## The locks -/

/-- The lock held at a point. -/
def ConsolePt.lock : ConsolePt → Option ConsoleLock
  | .readP => some .rLock
  | .getChar => some .rLock
  | .readRelease _ => some .rLock
  | .putChar _ _ _ => some .wLock
  | .writeP _ _ _ _ => some .wLock
  | .writeRelease _ _ _ _ => some .wLock
  | _ => none

/-- The locks held at a point, as a service wants them. -/
def ConsolePt.held (pt : ConsolePt) (l : ConsoleLock) : Prop := pt.lock = some l

namespace ConsolePt

variable {pt k : ConsolePt} {l : ConsoleLock}

theorem held_acquire (hpt : pt.lock = none) (hk : k.lock = some l) :
    ¬ pt.held l ∧ ∀ l', k.held l' ↔ pt.held l' ∨ l' = l := by
  simp only [held, hpt, hk, reduceCtorEq, not_false_eq_true, Option.some.injEq, false_or, true_and]
  exact fun _ => eq_comm

theorem held_release (hpt : pt.lock = some l) (hk : k.lock = none) :
    pt.held l ∧ ∀ l', k.held l' ↔ pt.held l' ∧ l' ≠ l := by
  simp only [held, hpt, hk, reduceCtorEq, Option.some.injEq, false_iff, not_and, not_not, true_and]
  exact fun _ heq => heq.symm

end ConsolePt

theorem synchConsole_disciplined : synchConsole.Disciplined ConsolePt.held where
  entry o l := by cases o <;> exact nofun
  acquire := by
    intro t pt l k hcode
    replace hcode : synchConsoleCode t pt = .acquire l k := hcode
    cases pt with
    | readAcquire | writeAcquire c rest bytes =>
      cases hcode
      exact ConsolePt.held_acquire rfl rfl
    | writeLoop rest bytes => cases rest <;> cases hcode
    | _ => cases hcode
  release := by
    intro t pt l k hcode
    replace hcode : synchConsoleCode t pt = .release l k := hcode
    cases pt with
    | readRelease cc | writeRelease c n rest bytes =>
      cases hcode
      exact ConsolePt.held_release rfl rfl
    | writeLoop rest bytes => cases rest <;> cases hcode
    | _ => cases hcode
  keeps := by
    intro t pt k hkeeps l
    replace hkeeps : (synchConsoleCode t pt).Keeps k := hkeeps
    cases pt with
    | readP =>
      cases hkeeps
      exact Iff.rfl
    | getChar | writeStart buffer =>
      obtain ⟨-, rfl⟩ := SvcAct.Keeps.of_some hkeeps
      exact Iff.rfl
    | writeLoop rest bytes =>
      cases rest with
      | nil | cons c rest =>
        obtain ⟨-, rfl⟩ := SvcAct.Keeps.of_some hkeeps
        exact Iff.rfl
    | putChar c rest bytes =>
      cases hkeeps with
      | tau hf =>
        obtain ⟨out, -, heq⟩ := Option.map_eq_some_iff.mp hf
        obtain ⟨-, rfl⟩ := Prod.mk.inj heq
        exact Iff.rfl
    | writeP c n rest bytes =>
      cases hkeeps
      exact Iff.rfl
    | _ => cases hkeeps
  ret := by
    intro t pt a hcode l
    replace hcode : synchConsoleCode t pt = .ret a := hcode
    cases pt with
    | readDone cc => exact nofun
    | writeDone bytes => exact nofun
    | writeLoop rest bytes => cases rest <;> cases hcode
    | _ => cases hcode

/-- The calls of locks return to the points after them. -/
theorem synchConsole_target {t : Tid} {pt k : ConsolePt}
    (h : (synchConsoleCode t pt).target = some k) :
    (pt = .readAcquire ∧ k = .readP) ∨ (∃ cc, pt = .readRelease cc ∧ k = .readDone cc) ∨
    (∃ c rest bytes, pt = .writeAcquire c rest bytes ∧ k = .putChar c rest bytes) ∨
    (∃ c n rest bytes, pt = .writeRelease c n rest bytes ∧ k = .writeLoop rest (bytes + 1)) := by
  cases pt with
  | readAcquire => cases h; exact Or.inl ⟨rfl, rfl⟩
  | readRelease cc => cases h; exact Or.inr (Or.inl ⟨cc, rfl, rfl⟩)
  | writeAcquire c rest bytes => cases h; exact Or.inr (Or.inr (Or.inl ⟨c, rest, bytes, rfl, rfl⟩))
  | writeRelease c n rest bytes =>
    cases h
    exact Or.inr (Or.inr (Or.inr ⟨c, n, rest, bytes, rfl, rfl⟩))
  | writeLoop rest bytes => cases rest <;> cases h
  | _ => cases h

theorem getChar_settled : synchConsole.Settled .getChar := by
  intro t pt h
  rcases synchConsole_target h with ⟨-, hk⟩ | ⟨cc, -, hk⟩ | ⟨c, rest, bytes, -, hk⟩ |
    ⟨c, n, rest, bytes, -, hk⟩ <;> cases hk

theorem writeP_settled (c : UInt8) (n : Nat) (rest : List UInt8) (bytes : Nat) :
    synchConsole.Settled (.writeP c n rest bytes) := by
  intro t pt h
  rcases synchConsole_target h with ⟨-, hk⟩ | ⟨cc, -, hk⟩ | ⟨c, rest, bytes, -, hk⟩ |
    ⟨c, n, rest, bytes, -, hk⟩ <;> cases hk

/-! ## What a step does -/

/-- The moves of a thread that touch neither the terminal nor the semaphores. -/
inductive ConsolePt.Quiet : Option ConsolePt → Option ConsolePt → Prop where
  | readEnter : Quiet none (some .readAcquire)
  | readLocked : Quiet (some .readAcquire) (some .readP)
  | readUnlocked (cc : UInt8) : Quiet (some (.readRelease cc)) (some (.readDone cc))
  | readLeave (cc : UInt8) : Quiet (some (.readDone cc)) none
  | writeEnter (buffer : List UInt8) : Quiet none (some (.writeStart buffer))
  | writeNext (c : UInt8) (rest : List UInt8) (bytes : Nat) :
      Quiet (some (.writeLoop (c :: rest) bytes)) (some (.writeAcquire c rest bytes))
  | writeEnd (bytes : Nat) : Quiet (some (.writeLoop [] bytes)) (some (.writeDone bytes))
  | writeLocked (c : UInt8) (rest : List UInt8) (bytes : Nat) :
      Quiet (some (.writeAcquire c rest bytes)) (some (.putChar c rest bytes))
  | writeUnlocked (c : UInt8) (n : Nat) (rest : List UInt8) (bytes : Nat) :
      Quiet (some (.writeRelease c n rest bytes)) (some (.writeLoop rest (bytes + 1)))
  | writeLeave (bytes : Nat) : Quiet (some (.writeDone bytes)) none

/-- The steps of the console: the moves, the points where a thread waits or touches the terminal, and the
    interrupts. -/
inductive ConsoleStep (v : SvcView ConsoleSem ConsoleData ConsolePt) :
    SvcView ConsoleSem ConsoleData ConsolePt → Prop where
  | quiet {t : Tid} {p p' : Option ConsolePt} (ht : v.pts t = p) (hquiet : ConsolePt.Quiet p p') :
      ConsoleStep v (v.goto t p')
  | readP {t : Tid} (ht : v.pts t = some .readP) (hv : v.val .cread ≠ 0)
      (halone : synchConsole.Alone ConsolePt.held v t .readP) :
      ConsoleStep v ((v.add .cread (-1)).goto t (some .getChar))
  | getChar {t : Tid} (ht : v.pts t = some .getChar) :
      ConsoleStep v ((v.withDev { v.dev with
        kbd := v.dev.kbd.getChar, reads := v.dev.reads ++ [(t, v.dev.kbd.incoming)] }).goto t
        (some (.readRelease v.dev.kbd.incoming)))
  | writeStart {t : Tid} {buffer : List UInt8} (ht : v.pts t = some (.writeStart buffer)) :
      ConsoleStep v ((v.withDev { v.dev with
        calls := Function.update v.dev.calls t (v.dev.calls t ++ [buffer]) }).goto t (some (.writeLoop buffer 0)))
  | putChar {t : Tid} {c : UInt8} {rest : List UInt8} {bytes : Nat} {out : Display}
      (ht : v.pts t = some (.putChar c rest bytes)) (hout : v.dev.out.putChar t c = some out)
      (halone : synchConsole.Alone ConsolePt.held v t (.putChar c rest bytes)) :
      ConsoleStep v ((v.withDev { v.dev with out := out }).goto t
        (some (.writeP c v.dev.out.shown.length rest bytes)))
  | writeP {t : Tid} {c : UInt8} {n : Nat} {rest : List UInt8} {bytes : Nat}
      (ht : v.pts t = some (.writeP c n rest bytes)) (hv : v.val .cwrite ≠ 0) :
      ConsoleStep v ((v.add .cwrite (-1)).goto t (some (.writeRelease c n rest bytes)))
  | charAvail {c : UInt8} {rest : List UInt8} (hempty : v.dev.kbd.incoming = charOfInt eof)
      (hstream : v.dev.kbd.stream = c :: rest) :
      ConsoleStep v ((v.add .cread 1).withDev
        { v.dev with kbd := { v.dev.kbd with incoming := c, stream := rest } })
  | noChar : ConsoleStep v (v.withDev v.dev)
  | writeDone {n : Nat} (hn : n ∈ v.dev.out.pending) :
      ConsoleStep v ((v.add .cwrite 1).withDev { v.dev with out := { v.dev.out with
        putBusy := false, pending := v.dev.out.pending.erase n, done := v.dev.out.done ++ [n] } })

/-- The poll of the keyboard. -/
theorem consoleStep_of_poll {v : SvcView ConsoleSem ConsoleData ConsolePt} {pollFile : Bool} {x : Option ConsoleSem}
    {d : ConsoleData} (h : synchConsole.handler (.checkCharAvail pollFile) v.dev = some (x, d)) :
    (x = none ∧ d = v.dev) ∨ ∃ c rest, x = some .cread ∧ v.dev.kbd.incoming = charOfInt eof ∧
      v.dev.kbd.stream = c :: rest ∧ d = { v.dev with kbd := { v.dev.kbd with incoming := c, stream := rest } } := by
  obtain ⟨r, hr, heq⟩ := Option.map_eq_some_iff.mp h
  obtain ⟨rfl, rfl⟩ := Prod.mk.inj heq
  simp only [Keyboard.checkCharAvail] at hr
  split at hr
  · obtain rfl := Option.some.inj hr
    exact Or.inl ⟨rfl, rfl⟩
  · rename_i hempty
    split at hr
    · cases hr
    · rename_i c rest hstream
      obtain rfl := Option.some.inj hr
      refine Or.inr ⟨c, rest, rfl, ?_, hstream, rfl⟩
      exact charToInt_eq_eof.mp (Classical.not_not.mp fun hne => hempty (Or.inl hne))

/-- The interrupt of the display. -/
theorem consoleStep_of_written {v : SvcView ConsoleSem ConsoleData ConsolePt} {n : Nat} {x : Option ConsoleSem}
    {d : ConsoleData} (h : synchConsole.handler (.writeDone n) v.dev = some (x, d)) :
    x = some .cwrite ∧ n ∈ v.dev.out.pending ∧ d = { v.dev with out := { v.dev.out with
      putBusy := false, pending := v.dev.out.pending.erase n, done := v.dev.out.done ++ [n] } } := by
  obtain ⟨out, hout, heq⟩ := Option.map_eq_some_iff.mp h
  obtain ⟨rfl, rfl⟩ := Prod.mk.inj heq
  simp only [Display.writeDone] at hout
  split at hout
  · rename_i hn
    obtain rfl := Option.some.inj hout
    exact ⟨rfl, hn, rfl⟩
  · cases hout

/-- **Inversion**: every step of the console is one of `ConsoleStep`. -/
theorem consoleStep_of_step {calls : Tid → ConsoleOp → Prop} {v v' : SvcView ConsoleSem ConsoleData ConsolePt}
    {lab : Label ConsoleIntr} (hs : synchConsole.Step ConsolePt.held calls v lab v') : ConsoleStep v v' := by
  cases hs with
  | @enter t o ht hcalls =>
    cases o with
    | readConsole => exact .quiet ht .readEnter
    | write buffer => exact .quiet ht (.writeEnter buffer)
  | @leave t pt a ht hcode =>
    replace hcode : synchConsoleCode t pt = .ret a := hcode
    cases pt with
    | readDone cc => exact .quiet ht (.readLeave cc)
    | writeDone bytes => exact .quiet ht (.writeLeave bytes)
    | writeLoop rest bytes => cases rest <;> cases hcode
    | _ => cases hcode
  | @call t pt k ht htarget =>
    rcases synchConsole_target htarget with ⟨rfl, rfl⟩ | ⟨cc, rfl, rfl⟩ | ⟨c, rest, bytes, rfl, rfl⟩ |
      ⟨c, n, rest, bytes, rfl, rfl⟩
    · exact .quiet ht .readLocked
    · exact .quiet ht (.readUnlocked cc)
    · exact .quiet ht (.writeLocked c rest bytes)
    · exact .quiet ht (.writeUnlocked c n rest bytes)
  | @P t pt k x ht hcode hv halone =>
    replace hcode : synchConsoleCode t pt = .P x k := hcode
    cases pt with
    | readP =>
      cases hcode
      exact .readP ht hv halone
    | writeP c n rest bytes =>
      cases hcode
      exact .writeP ht hv
    | writeLoop rest bytes => cases rest <;> cases hcode
    | _ => cases hcode
  | @tau t pt k f d ht hcode hf halone =>
    replace hcode : synchConsoleCode t pt = .tau f := hcode
    cases pt with
    | getChar =>
      cases hcode
      obtain ⟨rfl, rfl⟩ := Prod.mk.inj (Option.some.inj hf)
      exact .getChar ht
    | writeStart buffer =>
      cases hcode
      obtain ⟨rfl, rfl⟩ := Prod.mk.inj (Option.some.inj hf)
      exact .writeStart ht
    | writeLoop rest bytes =>
      cases rest with
      | nil =>
        cases hcode
        obtain ⟨rfl, rfl⟩ := Prod.mk.inj (Option.some.inj hf)
        exact .quiet ht (.writeEnd bytes)
      | cons c rest =>
        cases hcode
        obtain ⟨rfl, rfl⟩ := Prod.mk.inj (Option.some.inj hf)
        exact .quiet ht (.writeNext c rest bytes)
    | putChar c rest bytes =>
      cases hcode
      obtain ⟨out, hout, heq⟩ := Option.map_eq_some_iff.mp hf
      obtain ⟨rfl, rfl⟩ := Prod.mk.inj heq
      exact .putChar ht hout halone
    | _ => cases hcode
  | @intrV i x d hh =>
    cases i with
    | checkCharAvail pollFile =>
      rcases consoleStep_of_poll hh with ⟨hx, -⟩ | ⟨c, rest, hx, hempty, hstream, rfl⟩
      · cases hx
      · obtain rfl := Option.some.inj hx
        exact .charAvail hempty hstream
    | writeDone n =>
      obtain ⟨hx, hn, rfl⟩ := consoleStep_of_written hh
      obtain rfl := Option.some.inj hx
      exact .writeDone hn
  | @intr i d hh =>
    cases i with
    | checkCharAvail pollFile =>
      rcases consoleStep_of_poll hh with ⟨-, rfl⟩ | ⟨c, rest, hx, -⟩
      · exact .noChar
      · cases hx
    | writeDone n =>
      obtain ⟨hx, -⟩ := consoleStep_of_written hh
      cases hx

/-! ## Input -/

/-- A thread that has taken a `V` of the keyboard and not the character. -/
def ConsolePt.takes : Option ConsolePt → Bool
  | some .getChar => true
  | _ => false

/-- The characters that a thread is about to return. -/
def ConsolePt.answer : Option ConsolePt → Option UInt8
  | some (.readRelease cc) => some cc
  | some (.readDone cc) => some cc
  | _ => none

/-- In the stream, nothing but the byte that looks like an empty buffer follows such a byte. -/
def Unmistakable (input : List UInt8) : Prop :=
  ∀ p c q, input = p ++ charOfInt eof :: c :: q → c = charOfInt eof

/-- The invariant of the keyboard: of what was read from the stream, `n` characters were not returned,
    all of them equal to the one in the buffer; and a buffer that does not look empty stands for one. -/
structure KeyboardOk (v : SvcView ConsoleSem ConsoleData ConsolePt) (n : Nat) : Prop where
  takers : Takers (fun t => ConsolePt.takes (v.pts t)) (v.val .cread) n
  stream : v.dev.kbd.returned ++ List.replicate n v.dev.kbd.incoming ++ v.dev.kbd.stream
    = v.dev.kbd.input
  full : v.dev.kbd.incoming ≠ charOfInt eof → n = 1

/-- What `readConsole` returns is what the same call took from the keyboard. -/
structure AnswersOk (v : SvcView ConsoleSem ConsoleData ConsolePt) : Prop where
  reads : v.dev.reads.map Prod.snd = v.dev.kbd.returned
  own : ∀ t cc, ConsolePt.answer (v.pts t) = some cc → lastBy v.dev.reads t = some cc

/-- The keyboard, when the stream is unmistakable. -/
def InputOk (v : SvcView ConsoleSem ConsoleData ConsolePt) : Prop :=
  AnswersOk v ∧ (Unmistakable v.dev.kbd.input → ∃ n, KeyboardOk v n)

/-- A character that is read over `n` unread ones is one of them: they look like an empty buffer. -/
theorem KeyboardOk.read {v : SvcView ConsoleSem ConsoleData ConsolePt} {n : Nat} (h : KeyboardOk v n)
    (hinput : Unmistakable v.dev.kbd.input) {c : UInt8} {rest : List UInt8}
    (hempty : v.dev.kbd.incoming = charOfInt eof) (hstream : v.dev.kbd.stream = c :: rest) :
    (c ≠ charOfInt eof → n = 0) ∧
      v.dev.kbd.returned ++ List.replicate (n + 1) c ++ rest = v.dev.kbd.input := by
  have hall := h.stream
  rw [hempty, hstream] at hall
  cases n with
  | zero =>
    refine ⟨fun _ => rfl, ?_⟩
    rw [← hall]
    simp
  | succ m =>
    -- the last unread character is in the stream right before `c`
    have hsplit : v.dev.kbd.input
        = (v.dev.kbd.returned ++ List.replicate m (charOfInt eof)) ++ charOfInt eof :: c :: rest := by
      rw [← hall, List.replicate_succ']
      simp
    have hc : c = charOfInt eof := hinput _ c rest hsplit
    refine ⟨fun hne => absurd hc hne, ?_⟩
    rw [← hall, hc, List.replicate_succ' (n := m + 1)]
    simp

/-- `t` goes on without touching the keyboard, and takes nothing. -/
theorem InputOk.move {v : SvcView ConsoleSem ConsoleData ConsolePt} (h : InputOk v) {t : Tid}
    {p : Option ConsolePt} {d : ConsoleData} (hkbd : d.kbd = v.dev.kbd) (hreads : d.reads = v.dev.reads)
    (hbefore : ConsolePt.takes (v.pts t) = false) (hafter : ConsolePt.takes p = false)
    (hanswer : ∀ cc, ConsolePt.answer p = some cc → lastBy v.dev.reads t = some cc) :
    InputOk ((v.withDev d).goto t p) := by
  constructor
  · refine ⟨?_, SvcView.goto_forall (Q := fun t p => ∀ cc, ConsolePt.answer p = some cc →
      lastBy d.reads t = some cc) ?_ fun w _ => ?_⟩
    · show d.reads.map Prod.snd = d.kbd.returned
      rw [hkbd, hreads]
      exact h.1.reads
    · rw [hreads]
      exact hanswer
    · rw [hreads]
      exact h.1.own w
  · intro hinput
    replace hinput : Unmistakable d.kbd.input := hinput
    rw [hkbd] at hinput
    obtain ⟨n, hok⟩ := h.2 hinput
    refine ⟨n, ?_, ?_, ?_⟩
    · rw [SvcView.goto_map, hafter]
      exact hok.takers.other hbefore
    · show d.kbd.returned ++ List.replicate n d.kbd.incoming ++ d.kbd.stream = d.kbd.input
      rw [hkbd]
      exact hok.stream
    · show d.kbd.incoming ≠ charOfInt eof → n = 1
      rw [hkbd]
      exact hok.full

/-- `GetChar` by `t`: the character is the caller's own, and the last one that was taken. -/
theorem AnswersOk.getChar {v : SvcView ConsoleSem ConsoleData ConsolePt} (h : AnswersOk v) (t : Tid) :
    AnswersOk ((v.withDev { v.dev with
      kbd := v.dev.kbd.getChar, reads := v.dev.reads ++ [(t, v.dev.kbd.incoming)] }).goto t
      (some (.readRelease v.dev.kbd.incoming))) := by
  refine ⟨?_, SvcView.goto_forall (Q := fun w p => ∀ cc, ConsolePt.answer p = some cc →
    lastBy (v.dev.reads ++ [(t, v.dev.kbd.incoming)]) w = some cc) ?_ fun w hw cc hcc => ?_⟩
  · show (v.dev.reads ++ [(t, v.dev.kbd.incoming)]).map Prod.snd = v.dev.kbd.returned ++ [v.dev.kbd.incoming]
    rw [List.map_append, h.reads]
    rfl
  · intro cc hcc
    obtain rfl := Option.some.inj hcc
    exact lastBy_concat_self _ _ _
  · rw [lastBy_concat_of_ne _ hw]
    exact h.own w cc hcc

/-- Nobody holds a `V` of the keyboard while a thread is at another point that has `rLock`. -/
theorem nobody_takes {v : SvcView ConsoleSem ConsoleData ConsolePt} {t : Tid} {pt : ConsolePt}
    (halone : synchConsole.Alone ConsolePt.held v t pt) (hheld : pt.held .rLock)
    (ht : v.pts t = some pt) (hne : pt ≠ .getChar) (w : Tid) :
    ConsolePt.takes (v.pts w) = false := by
  cases hw : v.pts w with
  | none => rfl
  | some q =>
    cases q with
    | getChar =>
      obtain rfl : w = t := halone w .getChar .rLock hw getChar_settled hheld rfl
      rw [ht] at hw
      exact absurd (Option.some.inj hw) hne
    | _ => rfl

/-- `GetChar` by a thread that has taken a `V`. -/
theorem KeyboardOk.getChar {v : SvcView ConsoleSem ConsoleData ConsolePt} {n : Nat} (h : KeyboardOk v n) {t : Tid}
    (ht : v.pts t = some .getChar) : ∃ m, KeyboardOk ((v.withDev { v.dev with
      kbd := v.dev.kbd.getChar, reads := v.dev.reads ++ [(t, v.dev.kbd.incoming)] }).goto t
      (some (.readRelease v.dev.kbd.incoming))) m := by
  have htakes : ConsolePt.takes (v.pts t) = true := by
    rw [ht]
    rfl
  obtain ⟨m, rfl, htakers⟩ := h.takers.use htakes
  -- what is left unread looks like an empty buffer, or there is nothing left
  have hleft : List.replicate m v.dev.kbd.incoming = List.replicate m (charOfInt eof) := by
    by_cases hc : v.dev.kbd.incoming = charOfInt eof
    · rw [hc]
    · have hm := h.full hc
      obtain rfl : m = 0 := by omega
      rfl
  refine ⟨m, ?_, ?_, fun hne => absurd rfl hne⟩
  · rw [SvcView.goto_map]
    exact htakers
  · show v.dev.kbd.returned ++ [v.dev.kbd.incoming] ++ List.replicate m (charOfInt eof)
      ++ v.dev.kbd.stream = v.dev.kbd.input
    rw [← hleft, ← h.stream, List.replicate_succ]
    simp

/-- Step lemma. -/
theorem InputOk.step {calls : Tid → ConsoleOp → Prop}
    {v v' : SvcView ConsoleSem ConsoleData ConsolePt} {lab : Label ConsoleIntr} (h : InputOk v)
    (hs : synchConsole.Step ConsolePt.held calls v lab v') : InputOk v' := by
  cases consoleStep_of_step hs with
  | @quiet t p p' ht hquiet =>
    have hanswer := h.1.own t
    rw [ht] at hanswer
    cases hquiet with
    | readUnlocked cc => exact h.move rfl rfl (by rw [ht]; rfl) rfl hanswer
    | _ => exact h.move rfl rfl (by rw [ht]; rfl) rfl nofun
  | @readP t ht hv halone =>
    have hnobody := nobody_takes halone rfl ht nofun
    refine ⟨⟨h.1.reads, SvcView.goto_forall (Q := fun t p => ∀ cc, ConsolePt.answer p = some cc →
      lastBy v.dev.reads t = some cc) nofun fun w _ => h.1.own w⟩, fun hinput => ?_⟩
    obtain ⟨n, hok⟩ := h.2 hinput
    refine ⟨n, ?_, hok.stream, hok.full⟩
    rw [SvcView.goto_map, SvcView.goto_val, SvcView.add_val, Function.update_self,
      ← Int.sub_eq_add_neg]
    exact hok.takers.take hnobody hv t
  | @getChar t ht =>
    refine ⟨h.1.getChar t, fun hinput => ?_⟩
    obtain ⟨n, hok⟩ := h.2 hinput
    exact hok.getChar ht
  | writeStart ht | putChar ht _ _ => exact h.move rfl rfl (by rw [ht]; rfl) rfl nofun
  | @writeP t c n rest bytes ht hv =>
    -- the other semaphore
    have hmove := h.move (t := t) (p := some (.writeRelease c n rest bytes)) (d := v.dev) rfl rfl
      (by rw [ht]; rfl) rfl nofun
    refine ⟨⟨hmove.1.reads, hmove.1.own⟩, fun hinput => ?_⟩
    obtain ⟨m, hok⟩ := hmove.2 hinput
    exact ⟨m, hok.takers, hok.stream, hok.full⟩
  | charAvail hempty hstream =>
    refine ⟨⟨h.1.reads, h.1.own⟩, fun hinput => ?_⟩
    obtain ⟨n, hok⟩ := h.2 hinput
    obtain ⟨hzero, hall⟩ := hok.read hinput hempty hstream
    refine ⟨n + 1, ?_, hall, fun hne => ?_⟩
    · have htakers := hok.takers.announce
      simpa using htakers
    · rw [hzero hne]
  | noChar => exact h
  | writeDone hn =>
    refine ⟨⟨h.1.reads, h.1.own⟩, fun hinput => ?_⟩
    obtain ⟨m, hok⟩ := h.2 hinput
    exact ⟨m, hok.takers, hok.stream, hok.full⟩

/-- Run lemma. -/
theorem inputOk_of_reach {Sh Pc : Type} {u : UserClient ConsoleOp ConsoleAns Sh Pc}
    {s : (synchConsole.client u).St} (hr : (machine (synchConsole.client u).prog).Reach s) :
    InputOk (synchConsole.view u s) := by
  refine (synchConsole_disciplined.reach_view hr).invariant (I := InputOk) ?_ ?_
  · rintro v ⟨hpts, ⟨hkbd, -, -, hreads⟩, hval⟩
    refine ⟨⟨?_, fun t cc hcc => ?_⟩, fun _ => ⟨0, ?_, ?_, fun hne => ?_⟩⟩
    · rw [hkbd, hreads]
      rfl
    · rw [hpts] at hcc
      cases hcc
    · rw [hpts, hval]
      exact .idle (n := 0) fun _ => rfl
    · rw [hkbd]
      rfl
    · rw [hkbd] at hne
      exact absurd rfl hne
  · intro v lab v' _ hok hs
    exact hok.step hs

/-- What `readConsole` has returned, in the order the calls took effect, is a prefix of the stream; and
    every call returns the character that it took itself. -/
def ReturnsPrefix {Sh Pc : Type} (u : UserClient ConsoleOp ConsoleAns Sh Pc)
    (s : (synchConsole.client u).St) : Prop :=
  s.sh.client.dev.reads.map Prod.snd <+: s.sh.client.dev.kbd.input ∧
  ∀ t k cc, synchConsole.At u s t (.readDone cc) k → lastBy s.sh.client.dev.reads t = some cc

theorem returnsPrefix_of_reach {Sh Pc : Type} {u : UserClient ConsoleOp ConsoleAns Sh Pc}
    {s : (synchConsole.client u).St} (hr : (machine (synchConsole.client u).prog).Reach s)
    (hinput : Unmistakable s.sh.client.dev.kbd.input) : ReturnsPrefix u s := by
  obtain ⟨hanswers, hkbd⟩ := inputOk_of_reach hr
  obtain ⟨n, hok⟩ := hkbd hinput
  have hstream := hok.stream
  rw [List.append_assoc, ← hanswers.reads] at hstream
  refine ⟨⟨_, hstream⟩, fun t k cc ht => hanswers.own t cc ?_⟩
  rw [ht.pts]
  rfl

/-! ### A reader that loses a character

  Thread 0 reads what comes before a byte 255 that something else follows, one character after the
  other.  Then both the byte and what follows arrive before it reads again. -/

/-- A program that reads from the console for ever, in every thread. -/
def readerClient : UserClient ConsoleOp ConsoleAns Unit Unit where
  boot _ ctl _ := ctl = fun _ => .atPc ()
  call _ _ := .op .readConsole fun _ => ()

/-- `readerClient` with all threads outside of the console, and the keyboard, what was read and the histories
    of the semaphores as given. -/
def readerState (kbd : Keyboard) (reads : List (Tid × UInt8)) (log : MSem ConsoleLock ConsoleSem → SemLog) :
    (synchConsole.client readerClient).St :=
  { synchConsole.start readerClient ⟨kbd, .new, fun _ => [], reads⟩ () fun _ => .atPc () with log := log }

/-- The steps of thread 0 in one `readConsole`, from its call to its return. -/
def readOne : List (Label ConsoleIntr) := List.replicate 14 (.run 0)

/-- The state of the reader after the steps of `ls`. -/
def readerRun (s : (synchConsole.client readerClient).St) (ls : List (Label ConsoleIntr)) :
    (synchConsole.client readerClient).St :=
  Lts.replay (stepFn (synchConsole.client readerClient).prog) s ls

theorem readerRun_reach {s : (synchConsole.client readerClient).St}
    (hs : (machine (synchConsole.client readerClient).prog).Reach s) (ls : List (Label ConsoleIntr)) :
    (machine (synchConsole.client readerClient).prog).Reach (readerRun s ls) :=
  Lts.reach_replay machine_step hs ls

/-- The reader in its initial state. -/
def readerInit (input : List UInt8) : (synchConsole.client readerClient).St :=
  synchConsole.start readerClient ⟨.new input, .new, fun _ => [], []⟩ () fun _ => .atPc ()

theorem readerInit_reach (input : List UInt8) :
    (machine (synchConsole.client readerClient).prog).Reach (readerInit input) :=
  have hboot : synchConsole.boot ⟨.new input, .new, fun _ => [], []⟩ := ⟨rfl, rfl, rfl, rfl⟩
  Service.start_reach hboot rfl

/-- A character arrives and is read: the reader is where it was. -/
theorem readerRun_one (c : UInt8) (rest input returned : List UInt8) (reads : List (Tid × UInt8))
    (log : MSem ConsoleLock ConsoleSem → SemLog) :
    ∃ log', readerRun (readerState ⟨charOfInt eof, c :: rest, input, returned⟩ reads log)
        (.intr (.checkCharAvail true) :: readOne)
      = readerState ⟨charOfInt eof, rest, input, returned ++ [c]⟩ (reads ++ [(0, c)]) log' := by
  generalize hs : readerRun (readerState ⟨charOfInt eof, c :: rest, input, returned⟩ reads log)
    (.intr (.checkCharAvail true) :: readOne) = s
  refine ⟨s.log, ?_⟩
  obtain ⟨s', hs'⟩ : ∃ s', s' =
    readerState ⟨charOfInt eof, rest, input, returned ++ [c]⟩ (reads ++ [(0, c)]) s.log := ⟨_, rfl⟩
  have hsem : s.sem = s'.sem := by
    rw [← hs, hs']
    funext x
    rcases x with (_ | _) | (_ | _) | (_ | _) | n <;> rfl
  have hctl : s.ctl = s'.ctl := by
    rw [← hs, hs']
    funext t
    cases t <;> rfl
  have hsh : s.sh = s'.sh := by
    have hthname : s.sh.thname = fun _ => none := by
      rw [← hs]
      funext l
      cases l <;> rfl
    have hholders : s.sh.holders = fun _ => [] := by
      rw [← hs]
      funext l
      cases l <;> rfl
    have hacquired : s.sh.acquired = fun _ => [] := by
      rw [← hs]
      funext l
      cases l <;> rfl
    have hrest : s.sh = { s'.sh with
        thname := s.sh.thname, holders := s.sh.holders, acquired := s.sh.acquired } := by
      rw [← hs, hs']
      rfl
    rw [hrest, hthname, hholders, hacquired, hs']
    rfl
  have hprio : s.prio = s'.prio := by
    rw [← hs, hs']
    rfl
  rw [← hs']
  calc s = { s' with sem := s.sem, ctl := s.ctl, sh := s.sh, prio := s.prio } := by rw [hs']; rfl
    _ = s' := by rw [hsem, hctl, hsh, hprio]

/-- Any number of characters are read as they arrive. -/
theorem readerState_reach_append (input : List UInt8) : ∀ read rest, input = read ++ rest →
    ∃ reads log, (machine (synchConsole.client readerClient).prog).Reach
      (readerState ⟨charOfInt eof, rest, input, read⟩ reads log) := by
  intro read
  induction read using List.reverseRecOn with
  | nil =>
    intro rest hinput
    obtain rfl : input = rest := hinput
    exact ⟨_, _, readerInit_reach input⟩
  | append_singleton read c ih =>
    intro rest hinput
    obtain ⟨reads, log, hr⟩ := ih (c :: rest) (by rw [hinput, List.append_assoc]; rfl)
    obtain ⟨log', hone⟩ := readerRun_one c rest input read reads log
    exact ⟨reads ++ [(0, c)], log', hone ▸ readerRun_reach hr _⟩

/-- **A byte 255 that something else follows can be lost**: two polls before the next read. -/
theorem reader_loses {input p q : List UInt8} {c : UInt8} (hinput : input = p ++ charOfInt eof :: c :: q) :
    ∃ s, (machine (synchConsole.client readerClient).prog).Reach s ∧
      s.sh.client.dev.kbd.input = input ∧ s.sh.client.dev.reads.map Prod.snd = p ++ [c] := by
  obtain ⟨reads, log, hr⟩ := readerState_reach_append input p _ hinput
  have hlost := readerRun_reach hr (.intr (.checkCharAvail true) :: .intr (.checkCharAvail true) :: readOne)
  refine ⟨_, hlost, ?_, ?_⟩
  · rfl
  · exact (inputOk_of_reach hlost).1.reads

/-- **Console input.**  Whatever the program, the number of threads and the interleaving with the polls
    of the keyboard, `readConsole` returns a prefix of the stream; exactly for those streams in which
    nothing but the byte 255 follows a byte 255. -/
theorem console_input (input : List UInt8) :
    (∀ (Sh Pc : Type) (u : UserClient ConsoleOp ConsoleAns Sh Pc) (s : (synchConsole.client u).St),
      (machine (synchConsole.client u).prog).Reach s → s.sh.client.dev.kbd.input = input →
        ReturnsPrefix u s) ↔ Unmistakable input := by
  constructor
  · intro hall p c q hinput
    obtain ⟨s, hr, hs, hreturned⟩ := reader_loses hinput
    have hprefix := (hall Unit Unit readerClient s hr hs).1
    rw [hreturned, hs, hinput, List.prefix_append_right_inj] at hprefix
    exact (List.cons_prefix_cons.mp hprefix).1
  · rintro hinput Sh Pc u s hr rfl
    exact returnsPrefix_of_reach hr hinput

/-- A character arrives and thread 0 reads it, up to the return; then the same for thread 1. -/
def readTwo : List (Label ConsoleIntr) :=
  (.intr (.checkCharAvail true) :: List.replicate 13 (.run 0)) ++
    (.intr (.checkCharAvail true) :: List.replicate 13 (.run 1))

/-- Along `readTwo` each thread returns the character it took, and the two are the beginning of the input. -/
theorem console_input_two :
    synchConsole.At readerClient (readerRun (readerInit [72, 105, 33]) readTwo) 0 (.readDone 72) (fun _ => ()) ∧
    synchConsole.At readerClient (readerRun (readerInit [72, 105, 33]) readTwo) 1 (.readDone 105) (fun _ => ()) ∧
    ReturnsPrefix readerClient (readerRun (readerInit [72, 105, 33]) readTwo) := by
  have hplain : Unmistakable [72, 105, 33] := by
    intro p c q hinput
    have hmem : charOfInt eof ∈ ([72, 105, 33] : List UInt8) := by
      rw [hinput]
      simp
    exact absurd hmem (by decide)
  exact ⟨rfl, rfl, (console_input [72, 105, 33]).mpr hplain Unit Unit readerClient _
    (readerRun_reach (readerInit_reach _) readTwo) rfl⟩

/-- The bytes 255 and 65 arrive, and `readConsole` returns 65. -/
theorem console_input_loses :
    ∃ s, (machine (synchConsole.client readerClient).prog).Reach s ∧
      s.sh.client.dev.kbd.input = [255, 65] ∧ s.sh.client.dev.reads.map Prod.snd = [65] ∧
      ¬ ReturnsPrefix readerClient s := by
  have hsplit : ([255, 65] : List UInt8) = [] ++ charOfInt eof :: 65 :: [] := rfl
  obtain ⟨s, hr, hinput, hreturned⟩ := reader_loses hsplit
  refine ⟨s, hr, hinput, hreturned, fun hprefix => ?_⟩
  have hno := hprefix.1
  rw [hinput, hreturned] at hno
  exact absurd hno (by decide)

/-! ## Output -/

/-- The character whose interrupt a thread waits for. -/
def ConsolePt.waits : Option ConsolePt → Option Nat
  | some (.writeP _ n _ _) => some n
  | _ => none

/-- What a thread still has to put on the display, of the buffers it was called with. -/
def ConsolePt.left : Option ConsolePt → List UInt8
  | some (.writeLoop rest _) => rest
  | some (.writeAcquire c rest _) => c :: rest
  | some (.putChar c rest _) => c :: rest
  | some (.writeP _ _ rest _) => rest
  | some (.writeRelease _ _ rest _) => rest
  | _ => []

/-- What is known of the character a thread has put: it is on the display, and once the thread has
    waited its interrupt was taken. -/
def ConsolePt.Put (out : Display) (t : Tid) : Option ConsolePt → Prop
  | some (.writeP c n _ _) => out.shown[n]? = some (t, c)
  | some (.writeRelease c n _ _) => out.shown[n]? = some (t, c) ∧ n ∈ out.done
  | _ => True

/-- What is known at a point of thread `t`. -/
structure ConsolePt.Ok (d : ConsoleData) (t : Tid) (p : Option ConsolePt) : Prop where
  put : ConsolePt.Put d.out t p
  order : d.out.shownBy t ++ ConsolePt.left p = (d.calls t).flatten

/-- The invariant of the display. -/
structure DisplayOk (v : SvcView ConsoleSem ConsoleData ConsolePt) : Prop where
  requests : Requests (fun t => ConsolePt.waits (v.pts t)) v.dev.out.done v.dev.out.pending
    (v.val .cwrite)
  busy : v.dev.out.putBusy = !v.dev.out.pending.isEmpty
  pts : ∀ t, ConsolePt.Ok v.dev t (v.pts t)

/-- More characters on the display and more interrupts do not change what is known. -/
theorem ConsolePt.Put.mono {out out' : Display} {t : Tid} {p : Option ConsolePt}
    (h : ConsolePt.Put out t p) (hshown : ∃ more, out'.shown = out.shown ++ more)
    (hdone : ∀ n ∈ out.done, n ∈ out'.done) : ConsolePt.Put out' t p := by
  have hget : ∀ {n : Nat} {e : Tid × UInt8}, out.shown[n]? = some e → out'.shown[n]? = some e := by
    intro n e hn
    obtain ⟨more, hmore⟩ := hshown
    have hlt : n < out.shown.length := (List.getElem?_eq_some_iff.mp hn).1
    rw [hmore, List.getElem?_append_left hlt]
    exact hn
  unfold ConsolePt.Put at h ⊢
  split at h
  · exact hget h
  · exact ⟨hget h.1, hdone _ h.2⟩
  · trivial

/-- `t` goes on without touching the display or the history, and waits neither before nor after. -/
theorem DisplayOk.move {v : SvcView ConsoleSem ConsoleData ConsolePt} (h : DisplayOk v) {t : Tid}
    {p : Option ConsolePt} {d : ConsoleData} (hout : d.out = v.dev.out) (hcalls : d.calls = v.dev.calls)
    (hbefore : ConsolePt.waits (v.pts t) = none) (hafter : ConsolePt.waits p = none)
    (hput : ConsolePt.Put v.dev.out t p) (hleft : ConsolePt.left p = ConsolePt.left (v.pts t)) :
    DisplayOk ((v.withDev d).goto t p) := by
  have hok : ∀ {w q}, ConsolePt.Ok v.dev w q → ConsolePt.Ok d w q := by
    rintro w q ⟨hput, horder⟩
    refine ⟨?_, ?_⟩
    · rw [hout]
      exact hput
    · rw [hout, hcalls]
      exact horder
  have hp : ConsolePt.Ok v.dev t p := ⟨hput, by rw [hleft]; exact (h.pts t).order⟩
  refine ⟨?_, ?_, SvcView.goto_forall (hok hp) fun w _ => hok (h.pts w)⟩
  · rw [SvcView.goto_map, hafter]
    simp only [SvcView.goto_dev, SvcView.withDev_dev, hout]
    exact h.requests.other hbefore
  · show d.out.putBusy = !d.out.pending.isEmpty
    rw [hout]
    exact h.busy

/-- Nobody waits for the display while a thread is at another point that has `wLock`. -/
theorem nobody_waits {v : SvcView ConsoleSem ConsoleData ConsolePt} {t : Tid} {c : UInt8}
    {rest : List UInt8} {bytes : Nat}
    (halone : synchConsole.Alone ConsolePt.held v t (.putChar c rest bytes))
    (ht : v.pts t = some (.putChar c rest bytes)) (w : Tid) : ConsolePt.waits (v.pts w) = none := by
  cases hw : v.pts w with
  | none => rfl
  | some q =>
    cases q with
    | writeP c' n' rest' bytes' =>
      obtain rfl : w = t := halone w _ .wLock hw (writeP_settled c' n' rest' bytes') rfl rfl
      rw [ht] at hw
      cases hw
    | _ => rfl

theorem Display.shownBy_concat_self (shown : List (Tid × UInt8)) (busy : Bool) (pending done : List Nat)
    (t : Tid) (c : UInt8) : Display.shownBy ⟨shown ++ [(t, c)], busy, pending, done⟩ t
      = Display.shownBy ⟨shown, busy, pending, done⟩ t ++ [c] := by
  simp [Display.shownBy]

theorem Display.shownBy_concat_of_ne (shown : List (Tid × UInt8)) (busy : Bool)
    (pending done : List Nat) {t w : Tid} (hne : w ≠ t) (c : UInt8) :
    Display.shownBy ⟨shown ++ [(t, c)], busy, pending, done⟩ w
      = Display.shownBy ⟨shown, busy, pending, done⟩ w := by
  simp [Display.shownBy, hne.symm]

/-- `PutChar` by the only thread that has `wLock`. -/
theorem DisplayOk.putChar {v : SvcView ConsoleSem ConsoleData ConsolePt} (h : DisplayOk v) {t : Tid}
    {c : UInt8} {rest : List UInt8} {bytes : Nat} (ht : v.pts t = some (.putChar c rest bytes))
    (hnobody : ∀ w, ConsolePt.waits (v.pts w) = none) {out : Display}
    (hout : v.dev.out.putChar t c = some out) :
    DisplayOk ((v.withDev { v.dev with out := out }).goto t
      (some (.writeP c v.dev.out.shown.length rest bytes))) := by
  simp only [Display.putChar] at hout
  split at hout
  · cases hout
  · obtain rfl := Option.some.inj hout
    have horder := (h.pts t).order
    rw [ht] at horder
    refine ⟨?_, ?_, SvcView.goto_forall (Q := ConsolePt.Ok _) ⟨?_, ?_⟩ fun w hw => ⟨?_, ?_⟩⟩
    · rw [SvcView.goto_map]
      exact h.requests.issue hnobody t _
    · show true = !(v.dev.out.pending ++ [v.dev.out.shown.length]).isEmpty
      simp
    · exact List.getElem?_concat_length
    · show Display.shownBy ⟨v.dev.out.shown ++ [(t, c)], _, _, _⟩ t ++ rest = (v.dev.calls t).flatten
      rw [Display.shownBy_concat_self, List.append_assoc]
      exact horder
    · exact (h.pts w).put.mono ⟨_, rfl⟩ fun n hn => hn
    · show Display.shownBy ⟨v.dev.out.shown ++ [(t, c)], _, _, _⟩ w ++ ConsolePt.left (v.pts w)
        = (v.dev.calls w).flatten
      rw [Display.shownBy_concat_of_ne _ _ _ _ hw]
      exact (h.pts w).order

/-- A new `SC_Write`. -/
theorem DisplayOk.write {v : SvcView ConsoleSem ConsoleData ConsolePt} (h : DisplayOk v) {t : Tid}
    {buffer : List UInt8} (ht : v.pts t = some (.writeStart buffer)) :
    DisplayOk ((v.withDev { v.dev with
        calls := Function.update v.dev.calls t (v.dev.calls t ++ [buffer]) }).goto t
      (some (.writeLoop buffer 0))) := by
  have horder := (h.pts t).order
  rw [ht] at horder
  refine ⟨?_, h.busy, SvcView.goto_forall (Q := ConsolePt.Ok _) ⟨trivial, ?_⟩ fun w hw =>
    ⟨(h.pts w).put, ?_⟩⟩
  · rw [SvcView.goto_map]
    exact h.requests.other (by rw [ht]; rfl)
  · show v.dev.out.shownBy t ++ buffer
      = (Function.update v.dev.calls t (v.dev.calls t ++ [buffer]) t).flatten
    replace horder : v.dev.out.shownBy t ++ [] = (v.dev.calls t).flatten := horder
    rw [Function.update_self, List.flatten_append, ← horder]
    simp
  · show v.dev.out.shownBy w ++ ConsolePt.left (v.pts w)
      = (Function.update v.dev.calls t (v.dev.calls t ++ [buffer]) w).flatten
    rw [Function.update_of_ne hw]
    exact (h.pts w).order

/-- Step lemma. -/
theorem DisplayOk.step {calls : Tid → ConsoleOp → Prop}
    {v v' : SvcView ConsoleSem ConsoleData ConsolePt} {lab : Label ConsoleIntr} (h : DisplayOk v)
    (hs : synchConsole.Step ConsolePt.held calls v lab v') : DisplayOk v' := by
  cases consoleStep_of_step hs with
  | quiet ht hquiet =>
    cases hquiet with
    | _ => exact h.move rfl rfl (by rw [ht]; rfl) rfl trivial (by rw [ht]; rfl)
  | @readP t ht hv halone =>
    -- the other semaphore
    have hmove := h.move (t := t) (p := some .getChar) (d := v.dev) rfl rfl (by rw [ht]; rfl) rfl
      trivial (by rw [ht]; rfl)
    exact ⟨hmove.requests, hmove.busy, hmove.pts⟩
  | getChar ht => exact h.move rfl rfl (by rw [ht]; rfl) rfl trivial (by rw [ht]; rfl)
  | writeStart ht => exact h.write ht
  | putChar ht hout halone => exact h.putChar ht (nobody_waits halone ht) hout
  | @writeP t c n rest bytes ht hv =>
    have hpt := h.pts t
    rw [ht] at hpt
    have hwaits : ConsolePt.waits (v.pts t) = some n := by rw [ht]; rfl
    obtain ⟨hdone, hrequests⟩ := h.requests.take hwaits hv
    have hok : ConsolePt.Ok v.dev t (some (.writeRelease c n rest bytes)) :=
      ⟨⟨hpt.put, hdone⟩, hpt.order⟩
    refine ⟨?_, h.busy, SvcView.goto_forall hok fun w _ => h.pts w⟩
    rw [SvcView.goto_map, SvcView.goto_val, SvcView.add_val, Function.update_self,
      ← Int.sub_eq_add_neg]
    exact hrequests
  | charAvail _ _ => exact ⟨h.requests, h.busy, fun w => ⟨(h.pts w).put, (h.pts w).order⟩⟩
  | noChar => exact h
  | @writeDone n hn =>
    have hrequests := h.requests.announce hn
    refine ⟨?_, ?_, fun w => ⟨(h.pts w).put.mono ⟨[], (List.append_nil _).symm⟩ ?_, (h.pts w).order⟩⟩
    · simpa using hrequests
    · -- nothing else is pending
      show false = !(v.dev.out.pending.erase n).isEmpty
      rw [h.requests.erase_eq_nil hn]
      rfl
    · exact fun m hm => List.mem_append.mpr (Or.inl hm)

/-- Run lemma. -/
theorem displayOk_of_reach {Sh Pc : Type} {u : UserClient ConsoleOp ConsoleAns Sh Pc}
    {s : (synchConsole.client u).St} (hr : (machine (synchConsole.client u).prog).Reach s) :
    DisplayOk (synchConsole.view u s) := by
  refine (synchConsole_disciplined.reach_view hr).invariant (I := DisplayOk) ?_ ?_
  · rintro v ⟨hpts, ⟨-, hout, hcalls, -⟩, hval⟩
    refine ⟨?_, by rw [hout]; rfl, fun t => ?_⟩
    · rw [hpts, hout, hval]
      exact .idle fun _ => rfl
    · rw [hpts]
      refine ⟨trivial, ?_⟩
      rw [hout, hcalls]
      rfl
  · intro v lab v' _ hok hs
    exact hok.step hs

/-- **Console output.**  For every program, any number of processes and every interleaving with the
    interrupts of the display: a thread that calls `PutChar` finds the display free, so that the
    `ASSERT` does not stop it; `writeConsole` returns after the interrupt of its own character; and the
    characters on the display that come from a process, followed by those it still has to write, are
    those of its `Write` calls, in order. -/
theorem console_output {Sh Pc : Type} {u : UserClient ConsoleOp ConsoleAns Sh Pc}
    {s : (synchConsole.client u).St} (hr : (machine (synchConsole.client u).prog).Reach s) :
    (∀ t k c rest bytes, synchConsole.At u s t (.putChar c rest bytes) k →
      s.sh.client.dev.out.putBusy = false ∧
      ∃ s', stepFn (synchConsole.client u).prog s (.run t) = some s') ∧
    (∀ t k c n rest bytes, synchConsole.At u s t (.writeRelease c n rest bytes) k →
      n ∈ s.sh.client.dev.out.done ∧ s.sh.client.dev.out.shown[n]? = some (t, c)) ∧
    ∀ t, s.sh.client.dev.out.shownBy t ++ ConsolePt.left ((synchConsole.view u s).pts t)
      = (s.sh.client.dev.calls t).flatten := by
  have hok := displayOk_of_reach hr
  refine ⟨fun t k c rest bytes ht => ?_, fun t k c n rest bytes ht => ?_, fun t => (hok.pts t).order⟩
  · have hnobody := nobody_waits (synchConsole_disciplined.alone hr ht) ht.pts
    have hfree : s.sh.client.dev.out.putBusy = false := by
      have hbusy := hok.busy
      rw [(hok.requests.of_none hnobody).1] at hbusy
      exact hbusy
    refine ⟨hfree, ?_⟩
    obtain ⟨out, hout⟩ : ∃ out, s.sh.client.dev.out.putChar t c = some out := by
      simp [Display.putChar, hfree]
    have hf : (s.sh.client.dev.out.putChar t c).map (fun out =>
        (({ s.sh.client.dev with out := out } : ConsoleData),
          ConsolePt.writeP c s.sh.client.dev.out.shown.length rest bytes))
        = some ({ s.sh.client.dev with out := out },
          .writeP c s.sh.client.dev.out.shown.length rest bytes) := by
      rw [hout]
      rfl
    exact ht.enabled rfl hf
  · have hput := (hok.pts t).put
    rw [ht.pts] at hput
    exact ⟨hput.2, hput.1⟩

/-- Every thread writes two characters. -/
def writerClient : UserClient ConsoleOp ConsoleAns Unit Nat where
  boot _ ctl _ := ctl = fun _ => .atPc 0
  call _ pc :=
    match pc with
    | 0 => .op (.write [72, 105]) fun _ => 1
    | _ => .finish id

/-- `writerClient` after the steps of `ls`. -/
def writerRun (ls : List (Label ConsoleIntr)) : (synchConsole.client writerClient).St :=
  Lts.replay (stepFn (synchConsole.client writerClient).prog)
    (synchConsole.start writerClient ⟨.new [], .new, fun _ => [], []⟩ () fun _ => .atPc 0) ls

theorem writerRun_reach (ls : List (Label ConsoleIntr)) :
    (machine (synchConsole.client writerClient).prog).Reach (writerRun ls) :=
  have hboot : synchConsole.boot ⟨.new [], .new, fun _ => [], []⟩ := ⟨rfl, rfl, rfl, rfl⟩
  Lts.reach_replay machine_step (Service.start_reach hboot rfl) ls

/-- Thread 0 writes its first character and lets the lock go, then thread 1 does. -/
def writerSteps : List (Label ConsoleIntr) :=
  List.replicate 11 (.run 0) ++ [.intr (.writeDone 0)] ++ List.replicate 4 (.run 0) ++
    List.replicate 11 (.run 1) ++ [.intr (.writeDone 1), .run 1]

/-- Thread 1 has waited for character number 1, its own; each thread has one character left. -/
theorem console_output_two :
    synchConsole.At writerClient (writerRun writerSteps) 1 (.writeRelease 72 1 [105] 0) (fun _ => 1) ∧
      1 ∈ (writerRun writerSteps).sh.client.dev.out.done ∧
      (writerRun writerSteps).sh.client.dev.out.shown[1]? = some (1, 72) ∧
      (writerRun writerSteps).sh.client.dev.out.shownBy 0 ++ [105]
        = ((writerRun writerSteps).sh.client.dev.calls 0).flatten :=
  have hat : synchConsole.At writerClient (writerRun writerSteps) 1 (.writeRelease 72 1 [105] 0)
      (fun _ => 1) := rfl
  have hout := console_output (writerRun_reach writerSteps)
  have hone := hout.2.1 1 _ 72 1 [105] 0 hat
  ⟨hat, hone.1, hone.2, hout.2.2 0⟩

end Nachos
