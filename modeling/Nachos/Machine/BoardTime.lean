/-
  What the devices of the machine do to its clock.

  The interrupts to come are known exactly (`Agenda.OnBoard`), and with them what `Idle` finds and when the timer fires.

  1. **The end** (`idle_halts_iff`) — a machine with nothing to run halts if and only if it has no console and no
     network, and its disk is not active: A TIMER ALONE DOES NOT KEEP IT GOING, a keyboard does.

  2. **Time slices** (`time_slices`) — the timer fires every 100 to 110 ticks, or every 1 to 210 if it is random.

  Both are about times below `2 ^ 31`: past that, an `int when` is negative and its interrupt is due at once.
-/
import Nachos.Machine.Board

namespace Nachos

/-! ## The end -/

namespace Interrupt

variable {F A : Type} {i i' : Interrupt F A} {xs : List (Int × PendingInterrupt F A)}
  {o : Option (PendingInterrupt F A)}

/-- What `CheckIfDue` does in idle mode with the interrupt it has taken off the list. -/
theorem fire_idle {l : LinkedList (PendingInterrupt F A)} (hl : l.Represents xs) (hidle : i.status = .idleMode)
    {toOccur : PendingInterrupt F A} {when_ : Int}
    (hs : ({ i with pending := l }).fire toOccur when_ = some (o, i')) :
    o = none ↔ toOccur.type = .timerInt ∧ xs = [] := by
  rw [← hl.isEmpty_iff]
  unfold fire at hs
  split at hs
  · rename_i hlast
    obtain ⟨i₁, -, heq⟩ := Option.map_eq_some_iff.mp hs
    obtain ⟨rfl, -⟩ := Prod.mk.inj heq
    exact ⟨fun _ => hlast.2, fun _ => rfl⟩
  · rename_i hlast
    obtain ⟨rfl, -⟩ := Prod.mk.inj (Option.some.inj hs)
    refine ⟨fun hnone => ?_, fun hand => absurd ⟨hidle, hand⟩ hlast⟩
    cases hnone

/-- In idle mode, with the clock to be advanced, an interrupt fires unless there is a timer interrupt at most. -/
theorem Timed.nextDue_idle (h : i.Timed xs) (hidle : i.status = .idleMode) (hs : i.nextDue true = some (o, i')) :
    o = none ↔ xs = [] ∨ ∃ x, xs = [x] ∧ x.2.type = .timerInt := by
  obtain ⟨l, hremove, hl⟩ := h.pending.sortedRemove
  simp only [Interrupt.nextDue, hremove, Option.bind_some] at hs
  split at hs
  · cases xs with
    | nil =>
      obtain ⟨rfl, -⟩ := Prod.mk.inj (Option.some.inj hs)
      exact ⟨fun _ => Or.inl rfl, fun _ => rfl⟩
    | cons x rest =>
      simp only [List.head?_cons] at hs
      have hfire : o = none ↔ x.2.type = .timerInt ∧ rest = [] := by
        by_cases hdue : i.stats.totalTicks < x.1
        · rw [if_pos ⟨trivial, hdue⟩] at hs
          exact fire_idle (i := i.advanceTo x.1) hl hidle hs
        · rw [if_neg fun hand => hdue hand.2, if_neg hdue] at hs
          exact fire_idle hl hidle hs
      rw [hfire]
      constructor
      · rintro ⟨htimer, rfl⟩
        exact Or.inr ⟨x, rfl, htimer⟩
      · rintro (hnil | ⟨y, hy, htimer⟩)
        · cases hnil
        · obtain ⟨rfl, rfl⟩ := List.cons.inj hy
          exact ⟨htimer, rfl⟩
  · cases hs

end Interrupt

namespace Hardware

variable {F A D : Type} {dev : Devices F A D} {s s' : Hardware F A D} {xs : List (Int × PendingInterrupt F A)}

/-- **`CheckIfDue(true)` in idle mode** returns false if and only if nothing is pending but a timer interrupt. -/
theorem checkIfDue_idle (h : s.interrupt.Timed xs) (hidle : s.interrupt.status = .idleMode) {b : Bool}
    (hs : s.checkIfDue dev true = some (b, s')) :
    b = false ↔ xs = [] ∨ ∃ x, xs = [x] ∧ x.2.type = .timerInt := by
  obtain ⟨⟨o, i₁⟩, hnext, hs⟩ := Option.bind_eq_some_iff.mp hs
  rw [← h.nextDue_idle hidle hnext]
  cases o with
  | none =>
    obtain ⟨rfl, -⟩ := Prod.mk.inj (Option.some.inj hs)
    exact ⟨fun _ => rfl, fun _ => rfl⟩
  | some toOccur =>
    obtain ⟨s₁, -, heq⟩ := Option.map_eq_some_iff.mp hs
    obtain ⟨rfl, -⟩ := Prod.mk.inj heq
    constructor
    · intro hfalse
      cases hfalse
    · intro hnone
      cases hnone

/-- **`Idle`** halts if and only if that is so; and it returns. -/
theorem idle_halted_iff (hdev : dev.Positive) (h : s.interrupt.Timed xs) (hrun : s.halted = false)
    (hlevel : s.interrupt.level = .intOff) :
    (∃ n s', s.idle dev n = some s') ∧ ∀ n s', s.idle dev n = some s' →
      (s'.halted = true ↔ xs = [] ∨ ∃ x, xs = [x] ∧ x.2.type = .timerInt) := by
  obtain ⟨s₀, hs₀⟩ : ∃ s₀, s₀ = { s with interrupt := { s.interrupt with status := .idleMode } } := ⟨_, rfl⟩
  have h₀ : s₀.interrupt.Timed xs := by
    rw [hs₀]
    exact h.congr rfl rfl rfl rfl
  have hlevel₀ : s₀.interrupt.level = .intOff := by
    rw [hs₀]
    exact hlevel
  have hidle₀ : s₀.interrupt.status = .idleMode := by rw [hs₀]
  obtain ⟨b, s₁, xs₁, hcheck, h₁, hhalted, hlevel₁, -⟩ := checkIfDue_spec hdev h₀ hlevel₀ true
  have hiff := checkIfDue_idle h₀ hidle₀ hcheck
  have hloop := fun n => checkLoop_spec hdev n h₁ hlevel₁
  have hrun₁ : s₁.halted = false := by
    rw [hhalted, hs₀]
    exact hrun
  have heq : ∀ n, s.idle dev n = if b then (checkLoop dev n s₁).map fun s => { s with interrupt := s.interrupt.endIdle }
      else some { s₁ with halted := true } := by
    intro n
    rw [hs₀] at hcheck
    simp only [idle, hcheck, Option.bind_some]
  rw [← hiff]
  cases b with
  | false =>
    refine ⟨⟨0, _, heq 0⟩, fun n s' hs' => ?_⟩
    rw [heq n] at hs'
    obtain rfl := Option.some.inj hs'
    exact ⟨fun _ => rfl, fun _ => rfl⟩
  | true =>
    refine ⟨?_, fun n s' hs' => ?_⟩
    · obtain ⟨n, s₂, hs₂⟩ : ∃ n s₂, checkLoop dev n s₁ = some s₂ := ⟨_, (hloop _).1 (Nat.lt_succ_self _)⟩
      refine ⟨n, { s₂ with interrupt := s₂.interrupt.endIdle }, ?_⟩
      rw [heq n, if_pos rfl, hs₂]
      rfl
    · rw [heq n, if_pos rfl] at hs'
      obtain ⟨s₂, hs₂, rfl⟩ := Option.map_eq_some_iff.mp hs'
      obtain ⟨-, -, hkept, -⟩ := (hloop n).2 s₂ hs₂
      have hfalse : s₂.halted = false := hkept.trans hrun₁
      simp [hfalse]

end Hardware

variable {s : Hardware DeviceHandler Nat Board}

/-- Nothing but the timer will interrupt. -/
theorem Board.quiet_iff {d : Board} (hd : d.Flags) :
    (∀ ty, ty ≠ .timerInt → d.awaits ty = []) ↔ d.console = none ∧ d.card = none ∧
      ∀ v, d.drive = some v → v.disk.active = false := by
  constructor
  · intro h
    refine ⟨?_, ?_, fun v hv => ?_⟩
    · have hread := h .consoleReadInt (by decide)
      cases hc : d.console with
      | none => rfl
      | some c => simp [hc] at hread
    · have hrecv := h .networkRecvInt (by decide)
      cases hc : d.card with
      | none => rfl
      | some c => simp [hc] at hrecv
    · have hnone : v.disk.pending = [] := by simpa [hv] using h .diskInt (by decide)
      have hone := hd.disk v hv
      rw [hnone] at hone
      cases hactive : v.disk.active with
      | false => rfl
      | true => simp [hactive] at hone
  · rintro ⟨hconsole, hcard, hdrive⟩ ty hty
    cases ty with
    | timerInt => exact absurd rfl hty
    | diskInt =>
      cases hv : d.drive with
      | none => simp [hv]
      | some v =>
        have hone := hd.disk v hv
        rw [hdrive v hv] at hone
        simpa [hv] using hone
    | consoleWriteInt => simp [hconsole]
    | consoleReadInt => simp [hconsole]
    | networkSendInt => simp [hcard]
    | networkRecvInt => simp [hcard]

/-- The pending interrupts are at most one of the timer. -/
theorem Agenda.OnBoard.only_timer {xs : List (Int × PendingInterrupt DeviceHandler Nat)}
    (h : (s.agendaOf xs).OnBoard) :
    (xs = [] ∨ ∃ x, xs = [x] ∧ x.2.type = .timerInt) ↔ ∀ ty, ty ≠ .timerInt → s.world.awaits ty = [] := by
  have hnil : ∀ ty, s.world.awaits ty = [] ↔ ∀ x ∈ xs, x.2.type ≠ ty := by
    intro ty
    rw [← pendingArgs_eq_nil, ← List.length_eq_zero_iff, ← List.length_eq_zero_iff, (h.pendingArgs_perm ty).length_eq]
  constructor
  · rintro (rfl | ⟨x, rfl, htimer⟩) ty hty
    · exact (hnil ty).mpr fun x hx => absurd hx List.not_mem_nil
    · refine (hnil ty).mpr fun y hy heq => ?_
      obtain rfl := List.mem_singleton.mp hy
      exact hty (heq.symm.trans htimer)
  · intro hothers
    have htimer : ∀ x ∈ xs, x.2.type = .timerInt := by
      intro x hx
      by_contra hne
      exact (hnil x.2.type).mp (hothers _ hne) x hx rfl
    -- all of them are timer interrupts, so that there are as many as the timer waits for
    have hlength : xs.length ≤ 1 := by
      have hall : pendingArgs xs .timerInt = xs.map fun x => x.2.arg := by
        rw [pendingArgs, List.filter_eq_self.mpr fun x hx => decide_eq_true (htimer x hx)]
      have hperm := (h.pendingArgs_perm .timerInt).length_eq
      rw [hall, List.length_map] at hperm
      rw [hperm, Board.awaits]
      split <;> simp
    rcases xs with _ | ⟨x, rest⟩
    · exact Or.inl rfl
    · obtain rfl := List.length_eq_zero_iff.mp (Nat.le_zero.mp (Nat.le_of_succ_le_succ hlength))
      exact Or.inr ⟨x, rfl, htimer x List.mem_cons_self⟩

/-- **When a machine with nothing to run halts** (times below `2 ^ 31`): if and only if it has no console and no
    network, and its disk is not active.  In any other case `Idle` comes back, after the first interrupt and all that
    are due by then. -/
theorem idle_halts_iff (h : boardSys.Reach s) (hrun : s.halted = false)
    (hlevel : s.interrupt.level = .intOff) :
    (∃ n s', s.idle boardDevices n = some s') ∧ ∀ n s', s.idle boardDevices n = some s' →
      (s'.halted = true ↔ s.world.console = none ∧ s.world.card = none ∧
        ∀ v, s.world.drive = some v → v.disk.active = false) := by
  obtain ⟨xs, htimed, hboard, -, -⟩ := board_pending h
  obtain ⟨hreturns, hhalts⟩ := Hardware.idle_halted_iff boardDevices_positive htimed hrun hlevel
  refine ⟨hreturns, fun n s' hs' => (hhalts n s' hs').trans ?_⟩
  exact hboard.only_timer.trans (Board.quiet_iff hboard.ok.toFlags)

/-- With the timer alone, the machine halts. -/
theorem idle_halts_iff_timer :
    let s := Lts.replay boardStep boardInit [.call (.newTimer false), .setLevel .intOn, .setLevel .intOff]
    s.halted = false ∧ s.interrupt.level = .intOff ∧ ∀ n s', s.idle boardDevices n = some s' → s'.halted = true := by
  intro s
  have hrun : s.halted = false := by decide
  have hlevel : s.interrupt.level = .intOff := by decide
  obtain ⟨-, hhalts⟩ := idle_halts_iff (s := s) (boardStep_reach _) hrun hlevel
  refine ⟨hrun, hlevel, fun n s' hs' => (hhalts n s' hs').mpr ⟨rfl, rfl, fun v hv => ?_⟩⟩
  cases hv

/-! ## Time slices -/

/-- The handler of the timer asks for the next interrupt within the bounds. -/
theorem Board.timerExpired_bounds {d : Board} {t : Timer} (ht : d.timer = some t) :
    ∀ r ∈ d.timerExpired.1, t.least ≤ r.fromNow ∧ r.fromNow ≤ t.most := by
  intro r hr
  simp only [timerExpired, ht] at hr
  obtain rfl := List.mem_singleton.mp hr
  exact t.timeOfNextInterrupt_bounds d.random

/-- Apart from that, nobody asks for an interrupt of a timer that is there. -/
theorem Board.Moves.not_timer {left : IntType → List Nat} {rs : List (Request DeviceHandler Nat)} {d d' : Board}
    (h : Board.Moves d left rs d') (hleft : left .timerInt = d.awaits .timerInt) {t : Timer} (ht : d.timer = some t) :
    ∀ r ∈ rs, r.type ≠ .timerInt := by
  have hawaits := h.awaits .timerInt
  have hsame : d'.awaits .timerInt = d.awaits .timerInt := by rw [Board.awaits, Board.awaits, h.timer t ht, ht]
  rw [hleft, hsame] at hawaits
  have hnone : Board.asked rs .timerInt = [] := List.self_eq_append_right.mp hawaits
  rw [Board.asked, List.map_eq_nil_iff, List.filter_eq_nil_iff] at hnone
  exact fun r hr htype => hnone r hr (decide_eq_true htype)

theorem DeviceHandler.eq_timerHandler {f : DeviceHandler} (h : f.type = .timerInt) : f = .timerHandler := by
  cases f <;> first | rfl | cases h

namespace Agenda

/-- The times at which the timer has interrupted. -/
def slices {F A D : Type} (a : Agenda F A D) : List Int :=
  (a.fired.filter fun f => f.interrupt.type = .timerInt).map fun f => f.time

/-- The times are at the right distances, and so is the next. -/
structure Sliced (a : Agenda DeviceHandler Nat Board) : Prop where
  none_ : a.world.timer = none → a.slices = []
  past : ∀ t, a.world.timer = some t →
    a.slices.IsChain fun time next => time + t.least ≤ next ∧ next ≤ time + t.most + systemTick
  next : ∀ t, a.world.timer = some t → ∀ p ∈ a.pending, p.type = .timerInt → ∀ time ∈ a.slices.getLast?,
    time + t.least ≤ p.when_ ∧ p.when_ ≤ time + t.most

variable {a a' : Agenda DeviceHandler Nat Board}

/-- Without a timer there is no interrupt of it, and with one there is only one. -/
theorem OnBoard.timer_rest (h : a.OnBoard) {p : PendingInterrupt DeviceHandler Nat}
    {rest : Multiset (PendingInterrupt DeviceHandler Nat)} (hp : a.pending = p ::ₘ rest) (htype : p.type = .timerInt) :
    a.world.timer.isSome ∧ ∀ q ∈ rest, q.type ≠ .timerInt := by
  have hmem := h.mem_awaits (mem_of_cons hp).1
  rw [htype, Board.awaits] at hmem
  split at hmem
  · rename_i hsome
    refine ⟨hsome, fun q hq hqtype => ?_⟩
    have hrest := args_of_cons hp .timerInt
    rw [if_pos htype.symm, h.args, Board.awaits, if_pos hsome, List.mem_singleton.mp hmem, Multiset.coe_erase] at hrest
    have hq' : q.arg ∈ (rest.filter fun q => q.type = .timerInt).map fun q => q.arg :=
      Multiset.mem_map_of_mem _ (Multiset.mem_filter.mpr ⟨hq, hqtype⟩)
    rw [hrest] at hq'
    exact absurd hq' List.not_mem_nil
  · cases hmem

/-- What has nothing to do with the timer; `b` is the agenda that a call or a handler finds. -/
theorem Sliced.request (h : a.Sliced) {b : Agenda DeviceHandler Nat Board} (hpending : ∀ p ∈ b.pending, p ∈ a.pending)
    (hslices : b.slices = a.slices) {left : IntType → List Nat} {rs : List (Request DeviceHandler Nat)} {d : Board}
    (hm : Board.Moves a.world left rs d) (hleft : left .timerInt = a.world.awaits .timerInt) :
    (b.request d rs).Sliced := by
  have hafter : (b.request d rs).slices = a.slices := by
    rw [slices, fired_request]
    exact hslices
  cases ht : a.world.timer with
  | none =>
    have hnil := h.none_ ht
    refine ⟨fun _ => hafter.trans hnil, fun t _ => ?_, fun t _ p _ _ time htime => ?_⟩
    · rw [hafter, hnil]
      exact .nil
    · rw [hafter, hnil] at htime
      cases htime
  | some t =>
    have hkept := hm.timer t ht
    refine ⟨fun hnone => ?_, fun t' ht' => ?_, fun t' ht' p hp htype => ?_⟩
    · rw [world_request, hkept] at hnone
      cases hnone
    · rw [world_request, hkept] at ht'
      rw [hafter]
      exact h.past t' (ht.trans ht')
    · rw [world_request, hkept] at ht'
      rw [hafter]
      rcases mem_request hp with hp | ⟨r, hr, -, hrtype, -⟩
      · exact h.next t' (ht.trans ht') p (hpending p hp) htype
      · exact absurd (hrtype.symm.trans htype) (hm.not_timer hleft ht r hr)

/-- **Step lemma.** -/
theorem Step.sliced (hs : Step boardDevices boardCalls a a') (hboard : a.OnBoard) (hwithin : a.Within systemTick)
    (h : a.Sliced) : a'.Sliced := by
  cases hs with
  | call hcall hlater => exact h.request (fun _ hp => hp) rfl (boardCalls_moves hboard.ok hcall) rfl
  | tick hpos hle hdue | skip hp hfirst hlater => exact ⟨h.none_, h.past, h.next⟩
  | @fire p rest hp hfirst hdue hlater =>
    obtain ⟨hpend, hrest⟩ := mem_of_cons hp
    have hmem := hboard.mem_awaits hpend
    rw [hboard.types p hpend] at hmem
    have hm := boardDevices_moves hboard.ok hmem a.now
    by_cases htype : p.type = .timerInt
    · obtain ⟨hsome, hothers⟩ := hboard.timer_rest hp htype
      obtain ⟨t, ht⟩ := Option.isSome_iff_exists.mp hsome
      have hkept := hm.timer t ht
      have hhandler : p.handler = .timerHandler :=
        DeviceHandler.eq_timerHandler ((hboard.types p hpend).symm.trans htype)
      obtain ⟨b, hb⟩ : ∃ b, b = (a.take p rest).request (a.handle boardDevices p).2.2 (a.handle boardDevices p).1 :=
        ⟨_, rfl⟩
      have hworld : b.world.timer = some t := by
        rw [hb, world_request]
        exact hkept
      have hslices : b.slices = a.slices ++ [a.now] := by
        rw [hb, slices, fired_request]
        simp [slices, take, htype]
      rw [← hb]
      refine ⟨fun hnone => ?_, fun t' ht' => ?_, fun t' ht' q hq hqtype time htime => ?_⟩
      · rw [hworld] at hnone
        cases hnone
      · obtain rfl := Option.some.inj (hworld.symm.trans ht')
        rw [hslices, List.isChain_append]
        refine ⟨h.past t ht, .singleton _, fun time htime now hnow => ?_⟩
        obtain rfl := Option.some.inj hnow
        obtain ⟨hleast, hmost⟩ := h.next t ht p hpend htype time htime
        have hlate := hwithin p hpend
        constructor <;> omega
      · obtain rfl := Option.some.inj (hworld.symm.trans ht')
        rw [hslices, List.getLast?_concat] at htime
        obtain rfl := Option.some.inj htime
        rw [hb] at hq
        rcases mem_request hq with hq | ⟨r, hr, -, -, hwhen⟩
        · exact absurd hqtype (hothers q hq)
        · rw [handle, hhandler] at hr
          obtain ⟨hleast, hmost⟩ := Board.timerExpired_bounds ht r hr
          rw [hwhen]
          show a.now + t.least ≤ a.now + r.fromNow ∧ a.now + r.fromNow ≤ a.now + t.most
          constructor <;> omega
    · refine h.request hrest ?_ hm (if_neg fun heq => ?_)
      · simp [slices, take, htype]
      · exact htype ((hboard.types p hpend).trans heq.symm)

/-- **Run lemma.** -/
theorem sliced_of_reach (h : (agenda boardDevices boardCalls Board.Start).Reach a) : a.Sliced := by
  refine h.invariant (I := Sliced) (fun a hinit => ?_) fun a _ a' hreach hold hs =>
    Step.sliced hs (onBoard_of_reach hreach) (punctual_of_reach hreach).1 hold
  obtain ⟨-, -, -, hfired, htimer, -⟩ := hinit
  refine ⟨fun _ => ?_, fun t ht => ?_, fun t ht => ?_⟩
  · rw [slices, hfired]
    rfl
  · rw [htimer] at ht
    cases ht
  · rw [htimer] at ht
    cases ht

end Agenda

/-- The times at which the timer of the machine has interrupted. -/
def timerTimes {F A D : Type} (s : Hardware F A D) : List Int :=
  (s.interrupt.fired.filter fun f => f.interrupt.type = .timerInt).map fun f => f.time

/-- **Time slices.**  In every run (times below `2 ^ 31`), between two interrupts of the timer there are 100 to 110
    ticks, and 1 to 210 if it is random; and since the last one there are 100 at most, or 200. -/
theorem time_slices (h : boardSys.Reach s) {t : Timer} (ht : s.world.timer = some t) :
    (timerTimes s).IsChain (fun time next => time + t.least ≤ next ∧ next ≤ time + t.most + systemTick) ∧
      ∀ time ∈ (timerTimes s).getLast?, s.interrupt.stats.totalTicks ≤ time + t.most := by
  obtain ⟨xs, htimed, hboard, hwithin, hreach⟩ := board_pending h
  have hsliced := Agenda.sliced_of_reach hreach
  refine ⟨hsliced.past t ht, fun time htime => ?_⟩
  -- the interrupt that comes next is pending, and not overdue
  have hone : 0 < (s.world.awaits .timerInt).length := by simp [ht]
  obtain ⟨x, hx, htype⟩ := (hboard.exists_pending .timerInt).mpr hone
  have hmem : x.2 ∈ (s.agendaOf xs).pending := Interrupt.mem_agendaOf.mpr ⟨x, hx, rfl⟩
  have hmost := (hsliced.next t ht x.2 hmem htype time htime).2
  have hlate : s.interrupt.stats.totalTicks ≤ x.2.when_ + 0 := hwithin x.2 hmem
  omega

/-- A machine with a timer that is not random and a console waits: the timer fires at 100 and at 200. -/
theorem time_slices_waiting :
    let s := Lts.replay boardStep boardInit [.call (.newTimer false), .setLevel .intOn, .call .newConsole,
      .setLevel .intOff, .idle, .idle, .idle]
    timerTimes s = [100, 200] ∧ (timerTimes s).IsChain fun time next => time + 100 ≤ next ∧ next ≤ time + 100 + 10 := by
  intro s
  have htimer : s.world.timer = some ⟨false⟩ := rfl
  exact ⟨by decide, (time_slices (s := s) (boardStep_reach _) htimer).1⟩

end Nachos
