/-
  `machine/disk.cc` — HOW LONG A REQUEST TAKES.

  The disk turns all the time: sector number `k % SectorsPerTrack` of every track is under the head from the tick
  `k * RotationTime` to the next boundary.  A request waits until the head is at its track, then for its sector, and
  then while the sector goes by; a read may also be answered from the track buffer, where the disk collects what
  passes under the head from `bufferInit` on.

  1. **Model** — `TimeToSeek`, `ModuloDiff`, `ComputeLatency` and `UpdateLast`, in the `int`s of the source: division
     truncates and a sum that does not fit wraps around.  The clock is a parameter.

  2. **Invariant** (`DiskHead.Kept`) — what every sequence of `UpdateLast` keeps of `lastSector` and `bufferInit`.

  3. **Latency** (`latencyOk_iff`) — the request ends when the sector has just passed, after less than one turn of the
     disk, and the track buffer has the sector whenever it is used: IF AND ONLY IF the boundary where the sector has
     passed is still an `int`.  That the latency is positive, which `Schedule` asks for, holds in any case.
-/
import Nachos.Lib.Bytes
import Nachos.Lib.Lts
import Nachos.Machine.Disk

namespace Nachos

/-! ## Model -/

/-- `SectorsPerTrack`. -/
def sectorsPerTrack : Int := 32

/-- `RotationTime`: the disk rotates by one sector. -/
def rotationTime : Int := 500

/-- `SeekTime`: the head moves by one track. -/
def seekTime : Int := 500

/-- What `class Disk` knows of its head and of the track buffer. -/
structure DiskHead where
  lastSector : Int
  bufferInit : Int

namespace DiskHead

/-- `lastSector = 0; bufferInit = 0`, in `Disk::Disk`. -/
def new : DiskHead := ⟨0, 0⟩

/-- `Disk::TimeToSeek(newSector, rotation)`: the result, and `*rotation`. -/
def timeToSeek (d : DiskHead) (totalTicks newSector : Int) : Int × Int :=
  let newTrack := newSector.tdiv sectorsPerTrack
  let oldTrack := d.lastSector.tdiv sectorsPerTrack
  let seek := (newTrack - oldTrack).natAbs * seekTime
  let over_ := (int32 (totalTicks + seek)).tmod rotationTime
  (seek, if over_ > 0 then rotationTime - over_ else 0)

/-- `Disk::ModuloDiff(to, from)`. -/
def moduloDiff (to_ from_ : Int) : Int :=
  let toOffset := to_.tmod sectorsPerTrack
  let fromOffset := from_.tmod sectorsPerTrack
  (toOffset - fromOffset + sectorsPerTrack).tmod sectorsPerTrack

/-- `stats->totalTicks + seek + rotation`. -/
def timeAfter (d : DiskHead) (totalTicks newSector : Int) : Int :=
  let (seek, rotation) := d.timeToSeek totalTicks newSector
  int32 (int32 (totalTicks + seek) + rotation)

/-- The test in `ComputeLatency` that the track buffer applies. -/
def inTrackBuffer (d : DiskHead) (totalTicks newSector : Int) (writing : Bool) : Bool :=
  writing == false && decide ((d.timeToSeek totalTicks newSector).1 = 0) &&
    decide ((int32 (d.timeAfter totalTicks newSector - d.bufferInit)).tdiv rotationTime >
      moduloDiff newSector (d.bufferInit.tdiv rotationTime))

/-- `Disk::ComputeLatency(newSector, writing)`; `trackBuffer` says that `NOTRACKBUF` is not defined. -/
def computeLatency (trackBuffer : Bool) (d : DiskHead) (totalTicks newSector : Int) (writing : Bool) : Int :=
  let (seek, rotation) := d.timeToSeek totalTicks newSector
  if trackBuffer && d.inTrackBuffer totalTicks newSector writing then rotationTime
  else
    let rotation := rotation + moduloDiff newSector ((d.timeAfter totalTicks newSector).tdiv rotationTime) * rotationTime
    seek + rotation + rotationTime

/-- `int when = stats->totalTicks + fromNow`, in the `Schedule(DiskDone, this, ticks, DiskInt)` of a request. -/
def when_ (trackBuffer : Bool) (d : DiskHead) (totalTicks newSector : Int) (writing : Bool) : Int :=
  int32 (totalTicks + d.computeLatency trackBuffer totalTicks newSector writing)

/-- `Disk::UpdateLast(newSector)`. -/
def updateLast (d : DiskHead) (totalTicks newSector : Int) : DiskHead where
  lastSector := newSector
  bufferInit := if (d.timeToSeek totalTicks newSector).1 ≠ 0 then d.timeAfter totalTicks newSector else d.bufferInit

end DiskHead

/-- A time that the clock can show. -/
def isTicks (totalTicks : Int) : Prop := 0 ≤ totalTicks ∧ totalTicks < 2 ^ 31

/-- **The requests**, one after the other, for any sectors and at any times. -/
def diskHeads : Lts DiskHead (Int × Int) where
  init d := d = DiskHead.new
  step d l d' := isTicks l.1 ∧ validSector l.2 ∧ d' = d.updateLast l.1 l.2

/-! ## The rotating disk -/

/-- The first sector boundary at or after a time. -/
def nextBoundary (time : Int) : Int := (time + (rotationTime - 1)) / rotationTime * rotationTime

/-- From a time on: the boundary where the head has passed over the whole of a sector. -/
def passedAt (time sector : Int) : Int :=
  nextBoundary time + ((sector - nextBoundary time / rotationTime) % sectorsPerTrack + 1) * rotationTime

/-- Between two times, the head passes over the whole of a sector. -/
def PassesOver (start stop sector : Int) : Prop :=
  ∃ k, start ≤ k * rotationTime ∧ (k + 1) * rotationTime ≤ stop ∧ k % sectorsPerTrack = sector % sectorsPerTrack

namespace DiskHead

/-- **The latency is that of the rotating disk**, and the interrupt is scheduled for that time. -/
structure LatencyOk (d : DiskHead) (totalTicks sector : Int) : Prop where
  positive : ∀ trackBuffer writing, 0 < d.computeLatency trackBuffer totalTicks sector writing
  scheduled : ∀ trackBuffer writing, d.when_ trackBuffer totalTicks sector writing =
    totalTicks + d.computeLatency trackBuffer totalTicks sector writing
  boundary : ∀ writing, rotationTime ∣ d.when_ false totalTicks sector writing
  passed : ∀ writing, (d.when_ false totalTicks sector writing / rotationTime - 1) % sectorsPerTrack =
    sector % sectorsPerTrack
  oneTurn : ∀ writing, d.computeLatency false totalTicks sector writing - (d.timeToSeek totalTicks sector).1 -
    rotationTime < sectorsPerTrack * rotationTime
  buffered : ∀ writing, d.inTrackBuffer totalTicks sector writing = true →
    writing = false ∧ sector / sectorsPerTrack = d.lastSector / sectorsPerTrack ∧
      PassesOver d.bufferInit (nextBoundary totalTicks) sector
  unbuffered : ∀ writing, d.inTrackBuffer totalTicks sector writing = false →
    d.computeLatency true totalTicks sector writing = d.computeLatency false totalTicks sector writing

/-! ## Division that truncates -/

theorem tdiv_tmod (a : Int) {b : Int} (hb : 0 < b) :
    b * a.tdiv b + a.tmod b = a ∧ -b < a.tmod b ∧ a.tmod b < b ∧ (0 ≤ a → 0 ≤ a.tmod b) ∧ (a ≤ 0 → a.tmod b ≤ 0) := by
  refine ⟨Int.mul_tdiv_add_tmod a b, Int.lt_tmod_of_pos a hb, Int.tmod_lt_of_pos a hb, Int.tmod_nonneg b, ?_⟩
  intro ha
  have hneg := Int.tmod_nonneg b (Int.neg_nonneg.mpr ha)
  rw [Int.neg_tmod] at hneg
  omega

/-- `ModuloDiff` is the difference modulo a turn, also where the position is negative. -/
theorem moduloDiff_eq {to_ : Int} (hto : 0 ≤ to_) (from_ : Int) : moduloDiff to_ from_ = (to_ - from_) % 32 := by
  obtain ⟨hto_eq, -, hto_lt, hto_nonneg, -⟩ := tdiv_tmod to_ (b := 32) (by decide)
  obtain ⟨hfrom_eq, hfrom_gt, hfrom_lt, -, -⟩ := tdiv_tmod from_ (b := 32) (by decide)
  have hto_nonneg := hto_nonneg hto
  rw [moduloDiff, sectorsPerTrack, Int.tmod_eq_emod_of_nonneg (by omega)]
  omega

/-! ## Seeking -/

section Seek

variable {d : DiskHead} {totalTicks sector : Int}

/-- What the requests keep: `bufferInit` is a sector boundary, or has wrapped around. -/
structure Kept (d : DiskHead) : Prop where
  sector : validSector d.lastSector
  buffer : (0 ≤ d.bufferInit ∧ d.bufferInit < 2 ^ 31 ∧ d.bufferInit % 500 = 0) ∨
    (-2 ^ 31 ≤ d.bufferInit ∧ d.bufferInit < -2 ^ 31 + 16000)

theorem seek_eq (hd : d.Kept) (hs : validSector sector) (totalTicks : Int) :
    (d.timeToSeek totalTicks sector).1 =
      (sector / sectorsPerTrack - d.lastSector / sectorsPerTrack).natAbs * seekTime := by
  simp only [timeToSeek, Int.tdiv_eq_ediv_of_nonneg hs.1, Int.tdiv_eq_ediv_of_nonneg hd.sector.1]

/-- A seek goes over 31 tracks at most. -/
theorem seek_bounds (hd : d.Kept) (hs : validSector sector) (totalTicks : Int) :
    0 ≤ (d.timeToSeek totalTicks sector).1 ∧ (d.timeToSeek totalTicks sector).1 ≤ 15500 := by
  obtain ⟨hs0, hs1⟩ := hs
  obtain ⟨hl0, hl1⟩ := hd.sector
  rw [seek_eq hd ⟨hs0, hs1⟩ totalTicks]
  simp only [sectorsPerTrack, seekTime, numSectors] at *
  omega

/-- **After the seek**: the next boundary, or what it wraps around to. -/
theorem timeAfter_cases (hd : d.Kept) (ht : isTicks totalTicks) (hs : validSector sector) :
    ∃ seek rotation, d.timeToSeek totalTicks sector = (seek, rotation) ∧ 0 ≤ seek ∧ 0 ≤ rotation ∧ rotation < 500 ∧
      ((totalTicks + seek ≤ 2147483500 ∧ (totalTicks + seek + rotation) % 500 = 0 ∧
          d.timeAfter totalTicks sector = totalTicks + seek + rotation) ∨
        (2147483500 < totalTicks + seek ∧ totalTicks + seek < 2 ^ 31 ∧ totalTicks + seek + rotation = 2147484000 ∧
          d.timeAfter totalTicks sector = 2147484000 - 2 ^ 32) ∨
        (2 ^ 31 ≤ totalTicks + seek ∧ totalTicks + seek < 2 ^ 31 + 15500 ∧ rotation = 0 ∧
          d.timeAfter totalTicks sector = totalTicks + seek - 2 ^ 32)) := by
  obtain ⟨ht0, ht1⟩ := ht
  obtain ⟨hseek0, hseek1⟩ := seek_bounds hd hs totalTicks
  rcases hts : d.timeToSeek totalTicks sector with ⟨seek, rotation⟩
  have hrot : rotation = if (int32 (totalTicks + seek)).tmod 500 > 0 then 500 - (int32 (totalTicks + seek)).tmod 500
      else 0 := by
    have h1 := congrArg Prod.fst hts
    have h2 := congrArg Prod.snd hts
    dsimp only at h1 h2
    rw [← h2, ← h1]
    rfl
  have hafter : d.timeAfter totalTicks sector = int32 (int32 (totalTicks + seek) + rotation) := by
    rw [timeAfter, hts]
  rw [hts] at hseek0 hseek1
  dsimp only at hseek0 hseek1
  refine ⟨seek, rotation, rfl, hseek0, ?_⟩
  rcases Int.lt_or_le (totalTicks + seek) (2 ^ 31) with hlt | hge
  · rw [int32_of_range (by omega) hlt, Int.tmod_eq_emod_of_nonneg (by omega)] at hrot
    rw [int32_of_range (by omega) hlt] at hafter
    have hrot0 : 0 ≤ rotation ∧ rotation < 500 ∧ (totalTicks + seek + rotation) % 500 = 0 := by
      split at hrot <;> omega
    refine ⟨hrot0.1, hrot0.2.1, ?_⟩
    rcases Int.lt_or_le 2147483500 (totalTicks + seek) with hlate | hearly
    · right
      left
      have hsum : totalTicks + seek + rotation = 2147484000 := by omega
      rw [hsum, int32_of_overflow (by decide) (by decide)] at hafter
      exact ⟨hlate, hlt, hsum, hafter⟩
    · left
      rw [int32_of_range (by omega) (by omega)] at hafter
      exact ⟨hearly, hrot0.2.2, hafter⟩
  · -- the sum is negative, and so is its remainder
    have hneg : int32 (totalTicks + seek) = totalTicks + seek - 2 ^ 32 := int32_of_overflow hge (by omega)
    obtain ⟨-, -, -, -, hrem⟩ := tdiv_tmod (int32 (totalTicks + seek)) (b := 500) (by decide)
    rw [if_neg (by omega)] at hrot
    rw [hneg, hrot, Int.add_zero, int32_of_range (by omega) (by omega)] at hafter
    refine ⟨by omega, by omega, ?_⟩
    right
    right
    exact ⟨hge, by omega, hrot, hafter⟩

end Seek

/-! ## The invariant -/

theorem Kept.new : Kept new := ⟨by decide, Or.inl (by decide)⟩

/-- **`UpdateLast`** keeps the invariant. -/
theorem Kept.updateLast {d : DiskHead} {totalTicks sector : Int} (hd : d.Kept) (ht : isTicks totalTicks)
    (hs : validSector sector) : (d.updateLast totalTicks sector).Kept := by
  refine ⟨hs, ?_⟩
  simp only [DiskHead.updateLast]
  split
  · obtain ⟨seek, rotation, -, hseek, hrot, hrot', hcase⟩ := timeAfter_cases hd ht hs
    obtain ⟨ht0, ht1⟩ := ht
    rcases hcase with ⟨hle, hdvd, hafter⟩ | ⟨hlt, hlt', hsum, hafter⟩ | ⟨hge, hlt, -, hafter⟩ <;> rw [hafter] <;> omega
  · exact hd.buffer

theorem kept_of_reach {d : DiskHead} (h : diskHeads.Reach d) : d.Kept := by
  apply Lts.Reach.invariant (I := Kept) ?_ ?_ h
  · intro d hinit
    rw [show d = DiskHead.new from hinit]
    exact Kept.new
  · intro d l d' _ hd hstep
    obtain ⟨ht, hs, rfl⟩ := hstep
    exact hd.updateLast ht hs

/-! ## Latency -/

section Latency

variable {d : DiskHead} {totalTicks sector : Int}

/-- Without the track buffer: the seek, the rest of the sector under the head, other sectors, and the sector itself. -/
theorem latency_eq {seek rotation : Int} (hts : d.timeToSeek totalTicks sector = (seek, rotation))
    (hs : validSector sector) (writing : Bool) :
    d.computeLatency false totalTicks sector writing =
      seek + (rotation + (sector - (d.timeAfter totalTicks sector).tdiv 500) % 32 * 500) + 500 := by
  rw [computeLatency, hts, moduloDiff_eq hs.1]
  rfl

/-- From the track buffer, or not. -/
theorem computeLatency_cases (d : DiskHead) (totalTicks sector : Int) (trackBuffer writing : Bool) :
    d.computeLatency trackBuffer totalTicks sector writing = 500 ∨
      d.computeLatency trackBuffer totalTicks sector writing = d.computeLatency false totalTicks sector writing := by
  cases hbuf : trackBuffer && d.inTrackBuffer totalTicks sector writing with
  | true =>
    left
    rw [computeLatency, hbuf]
    rfl
  | false =>
    right
    rw [computeLatency, hbuf]
    rfl

/-- **The latency is positive**, whatever wraps around. -/
theorem computeLatency_pos (hd : d.Kept) (ht : isTicks totalTicks) (hs : validSector sector)
    (trackBuffer writing : Bool) : 0 < d.computeLatency trackBuffer totalTicks sector writing := by
  obtain ⟨seek, rotation, hts, hseek, hrot, -, -⟩ := timeAfter_cases hd ht hs
  rcases computeLatency_cases d totalTicks sector trackBuffer writing with h | h
  · omega
  · rw [h, latency_eq hts hs]
    omega

theorem oneTurn (hd : d.Kept) (ht : isTicks totalTicks) (hs : validSector sector) (writing : Bool) :
    d.computeLatency false totalTicks sector writing - (d.timeToSeek totalTicks sector).1 - rotationTime <
      sectorsPerTrack * rotationTime := by
  obtain ⟨seek, rotation, hts, -, -, hrot, -⟩ := timeAfter_cases hd ht hs
  rw [latency_eq hts hs, hts, rotationTime, sectorsPerTrack]
  omega

/-- **The request ends when its sector has passed**, if the next boundary after the seek is an `int`; else it ends
    after the last `int`. -/
theorem completes (hd : d.Kept) (ht : isTicks totalTicks) (hs : validSector sector) (writing : Bool) :
    (totalTicks + (d.timeToSeek totalTicks sector).1 ≤ 2147483500 ∧
      totalTicks + d.computeLatency false totalTicks sector writing =
        passedAt (totalTicks + (d.timeToSeek totalTicks sector).1) sector) ∨
    (2147483500 < totalTicks + (d.timeToSeek totalTicks sector).1 ∧
      2 ^ 31 ≤ totalTicks + d.computeLatency false totalTicks sector writing) := by
  obtain ⟨seek, rotation, hts, hseek, hrot, hrot', hcase⟩ := timeAfter_cases hd ht hs
  obtain ⟨hquot, hrem, hrem', hrem0, -⟩ := tdiv_tmod (d.timeAfter totalTicks sector) (b := 500) (by decide)
  rw [latency_eq hts hs, hts]
  obtain ⟨ht0, ht1⟩ := ht
  rcases hcase with ⟨hle, hdvd, hafter⟩ | ⟨hlt, hlt', hsum, -⟩ | ⟨hge, hlt, hzero, -⟩
  · left
    have hnext : nextBoundary (totalTicks + seek) = totalTicks + seek + rotation := by
      rw [nextBoundary, rotationTime]
      omega
    have hfrom : (d.timeAfter totalTicks sector).tdiv 500 = (totalTicks + seek + rotation) / 500 := by
      have hpos := hrem0 (by omega)
      omega
    refine ⟨hle, ?_⟩
    rw [passedAt, hnext, hfrom, rotationTime, sectorsPerTrack]
    omega
  · right
    constructor <;> omega
  · right
    constructor <;> omega

/-- It is a boundary, at least one sector after the time, and the sector is the one before it. -/
theorem passedAt_bounds (time sector : Int) :
    time + 500 ≤ passedAt time sector ∧ passedAt time sector % 500 = 0 ∧
      (passedAt time sector / 500 - 1) % 32 = sector % 32 := by
  simp only [passedAt, nextBoundary, rotationTime, sectorsPerTrack]
  omega

/-- **The interrupt is scheduled for that time**: exactly if the boundary where the sector has passed is an `int`. -/
theorem when_iff (hd : d.Kept) (ht : isTicks totalTicks) (hs : validSector sector) :
    (∀ trackBuffer writing, d.when_ trackBuffer totalTicks sector writing =
        totalTicks + d.computeLatency trackBuffer totalTicks sector writing) ↔
      passedAt (totalTicks + (d.timeToSeek totalTicks sector).1) sector < 2 ^ 31 := by
  obtain ⟨hafter, -, -⟩ := passedAt_bounds (totalTicks + (d.timeToSeek totalTicks sector).1) sector
  obtain ⟨hseek, -⟩ := seek_bounds hd hs totalTicks
  constructor
  · intro h
    have hwhen := h false true
    have hint := int32_lt (totalTicks + d.computeLatency false totalTicks sector true)
    rw [when_] at hwhen
    rcases completes hd ht hs true with ⟨-, hpassed⟩ | ⟨-, hlate⟩
    · omega
    · omega
  · intro h trackBuffer writing
    have hpos := computeLatency_pos hd ht hs trackBuffer writing
    have hlatency : totalTicks + d.computeLatency trackBuffer totalTicks sector writing < 2 ^ 31 := by
      rcases computeLatency_cases d totalTicks sector trackBuffer writing with hbuf | hbuf
      · omega
      · rcases completes hd ht hs writing with ⟨-, hpassed⟩ | ⟨hlate, -⟩
        · omega
        · omega
    obtain ⟨ht0, -⟩ := ht
    exact int32_of_range (by omega) hlatency

end Latency

/-! ## The track buffer -/

section Buffer

variable {d : DiskHead} {totalTicks sector : Int}

theorem inTrackBuffer_iff {writing : Bool} : d.inTrackBuffer totalTicks sector writing = true ↔
    writing = false ∧ (d.timeToSeek totalTicks sector).1 = 0 ∧
      moduloDiff sector (d.bufferInit.tdiv 500) < (int32 (d.timeAfter totalTicks sector - d.bufferInit)).tdiv 500 := by
  simp only [inTrackBuffer, Bool.and_eq_true, beq_iff_eq, decide_eq_true_eq, and_assoc]
  exact Iff.rfl

/-- No seek, no change of track. -/
theorem sameTrack (hd : d.Kept) (hs : validSector sector) (hseek : (d.timeToSeek totalTicks sector).1 = 0) :
    sector / sectorsPerTrack = d.lastSector / sectorsPerTrack := by
  rw [seek_eq hd hs totalTicks, seekTime] at hseek
  omega

/-- A time before which the disk has turned once and the head has passed over everything. -/
theorem passesOver_of_turn {start stop : Int} (hstop : stop % 500 = 0) (h : start + 16000 ≤ stop) (sector : Int) :
    PassesOver start stop sector := by
  refine ⟨stop / 500 - 1 - (stop / 500 - 1 - sector) % 32, ?_, ?_, ?_⟩ <;> simp only [rotationTime, sectorsPerTrack] <;> omega

/-- From a boundary on, the sectors come one after the other. -/
theorem passesOver_of_boundary {start stop : Int} (hstart : start % 500 = 0) (hstop : stop % 500 = 0) {sector : Int}
    (h : (sector - start / 500) % 32 < (stop - start) / 500) : PassesOver start stop sector := by
  refine ⟨start / 500 + (sector - start / 500) % 32, ?_, ?_, ?_⟩ <;> simp only [rotationTime, sectorsPerTrack] <;> omega

/-- **The track buffer has the sector** whenever it is used. -/
theorem passesOver_of_inTrackBuffer (hd : d.Kept) (ht : isTicks totalTicks) (hs : validSector sector)
    (hseek : (d.timeToSeek totalTicks sector).1 = 0)
    (hbuf : moduloDiff sector (d.bufferInit.tdiv 500) <
      (int32 (d.timeAfter totalTicks sector - d.bufferInit)).tdiv 500) :
    PassesOver d.bufferInit (nextBoundary totalTicks) sector := by
  obtain ⟨seek, rotation, hts, -, hrot, hrot', hcase⟩ := timeAfter_cases hd ht hs
  obtain ⟨ht0, ht1⟩ := ht
  obtain rfl : seek = 0 := by
    rw [hts] at hseek
    exact hseek
  obtain ⟨hquot, hrem, hrem', hrem0, hrem1⟩ :=
    tdiv_tmod (int32 (d.timeAfter totalTicks sector - d.bufferInit)) (b := 500) (by decide)
  rw [moduloDiff_eq hs.1] at hbuf
  have hnext : nextBoundary totalTicks % 500 = 0 := by
    rw [nextBoundary, rotationTime]
    omega
  have hround : totalTicks ≤ nextBoundary totalTicks ∧ nextBoundary totalTicks < totalTicks + 500 := by
    rw [nextBoundary, rotationTime]
    omega
  -- the buffer is used only if a sector lies between the two times
  have hpos : 500 ≤ int32 (d.timeAfter totalTicks sector - d.bufferInit) := by
    rcases Int.lt_or_le 0 (int32 (d.timeAfter totalTicks sector - d.bufferInit)) with hpos | hneg
    · have hrem := hrem0 (by omega)
      omega
    · have hrem := hrem1 hneg
      omega
  rcases hd.buffer with ⟨hb0, hb1, hb⟩ | ⟨hb0, hb1⟩
  · rw [Int.tdiv_eq_ediv_of_nonneg hb0, Int.tdiv_eq_ediv_of_nonneg (by omega)] at hbuf
    have hdiff : int32 (d.timeAfter totalTicks sector - d.bufferInit) = nextBoundary totalTicks - d.bufferInit := by
      rcases hcase with ⟨hle, hdvd, hafter⟩ | ⟨hlt, hlt', hsum, hafter⟩ | ⟨hge, -, -, -⟩
      · rw [hafter, int32_of_range (by omega) (by omega)]
        omega
      · rw [hafter] at hpos ⊢
        rcases Int.lt_or_le (2147484000 - 2 ^ 32 - d.bufferInit) (-2 ^ 31) with hunder | hrange
        · rw [int32_of_underflow (by omega) hunder]
          omega
        · rw [int32_of_range hrange (by omega)] at hpos
          omega
      · omega
    rw [hdiff] at hbuf
    exact passesOver_of_boundary hb hnext hbuf
  · -- `bufferInit` has wrapped around: the difference wraps around too, or the time is near 0
    rcases hcase with ⟨hle, hdvd, hafter⟩ | ⟨hlt, hlt', hsum, hafter⟩ | ⟨hge, -, -, -⟩
    · exact passesOver_of_turn hnext (by omega) sector
    · rw [hafter, int32_of_range (by omega) (by omega)] at hpos
      omega
    · omega

end Buffer

end DiskHead

/-- **THE LATENCY IS THAT OF A ROTATING DISK**, in every state of the head that requests can lead to: exactly while the
    boundary where the sector has passed, from the end of the seek on, is an `int`. -/
theorem latencyOk_iff (d : DiskHead) (hd : diskHeads.Reach d) (totalTicks : Int) (ht : isTicks totalTicks) (sector : Int)
    (hs : validSector sector) :
    d.LatencyOk totalTicks sector ↔
      passedAt (totalTicks + (sector / sectorsPerTrack - d.lastSector / sectorsPerTrack).natAbs * seekTime) sector
        < 2 ^ 31 := by
  have hkept := DiskHead.kept_of_reach hd
  rw [← DiskHead.seek_eq hkept hs totalTicks]
  constructor
  · intro h
    exact (DiskHead.when_iff hkept ht hs).mp h.scheduled
  · intro h
    have hscheduled := (DiskHead.when_iff hkept ht hs).mpr h
    obtain ⟨hafter, hdvd, hsector⟩ :=
      DiskHead.passedAt_bounds (totalTicks + (d.timeToSeek totalTicks sector).1) sector
    have hpassed (writing : Bool) : d.when_ false totalTicks sector writing =
        passedAt (totalTicks + (d.timeToSeek totalTicks sector).1) sector := by
      rw [hscheduled]
      rcases DiskHead.completes hkept ht hs writing with ⟨-, hpassed⟩ | ⟨hlate, -⟩
      · exact hpassed
      · omega
    constructor
    · exact DiskHead.computeLatency_pos hkept ht hs
    · exact hscheduled
    · intro writing
      rw [hpassed]
      exact Int.dvd_of_emod_eq_zero hdvd
    · intro writing
      rw [hpassed]
      exact hsector
    · exact DiskHead.oneTurn hkept ht hs
    · intro writing hbuf
      obtain ⟨hread, hseek, hpassed⟩ := DiskHead.inTrackBuffer_iff.mp hbuf
      exact ⟨hread, DiskHead.sameTrack hkept hs hseek,
        DiskHead.passesOver_of_inTrackBuffer hkept ht hs hseek hpassed⟩
    · intro writing hbuf
      rw [DiskHead.computeLatency, hbuf]
      rfl

/-- A request for sector 40 at the tick 12345, by a disk that has not moved its head yet. -/
theorem latencyOk_first : DiskHead.new.LatencyOk 12345 40 :=
  (latencyOk_iff DiskHead.new (.init rfl) 12345 ⟨by decide, by decide⟩ 40 ⟨by decide, by decide⟩).mpr (by decide)

/-- **Near the last tick**: a write to sector 0 takes 5500 ticks, and its interrupt is scheduled for a time before the
    boot, which is no sector boundary. -/
theorem latency_overflows : diskHeads.Reach DiskHead.new ∧ isTicks 2147483000 ∧ validSector 0 ∧
    DiskHead.new.computeLatency false 2147483000 0 true = 5500 ∧
    DiskHead.new.when_ false 2147483000 0 true = -2147478796 ∧
    ¬ DiskHead.new.LatencyOk 2147483000 0 := by
  have hwhen : DiskHead.new.when_ false 2147483000 0 true = -2147478796 := by decide
  refine ⟨.init rfl, ⟨by decide, by decide⟩, ⟨by decide, by decide⟩, by decide, hwhen, ?_⟩
  intro h
  have hboundary := h.boundary true
  rw [hwhen] at hboundary
  exact absurd hboundary (by decide)

end Nachos
