import RathalOS.ScreenRuns

/-!
The timer, kernel/drivers/timer.c. timer_init scales the frequency down before it divides:
frequencies up to 18 Hz divide by zero, and up to 109 Hz the divisor has more than the
sixteen bits that two writes to a channel of the timer pass on.
-/
namespace RathalOS.Timer

open ByteMemory Screen ScreenRuns Runs

def TIMER_DIVIDER : BitVec 32 := 360082
def COMMAND_REGISTER : BitVec 16 := 0x43
def CANAL0 : BitVec 16 := 0x40

/-- `timer_struct_t`. -/
structure TimerStruct where
  tick : BitVec 32
  freq : BitVec 16
  divider : BitVec 32

/-- A call of outb, which takes eight bits of data. -/
structure PortWrite where
  port : BitVec 16
  data : Byte
  deriving DecidableEq

def timerInit (freqHz : BitVec 32) : Except Fault (TimerStruct × List PortWrite) :=
  let scaled := freqHz * 100 / 1820
  if scaled = 0 then .error .undefined
  else
    let timer : TimerStruct :=
      { tick := 0
        freq := freqHz.setWidth 16
        divider := TIMER_DIVIDER / scaled }
    .ok (timer, [⟨COMMAND_REGISTER, 0x36⟩, ⟨CANAL0, timer.divider.setWidth 8⟩,
      ⟨CANAL0, (timer.divider >>> 8).setWidth 8⟩])

def timerHandler (timer : TimerStruct) (d : Display) : Except Fault (TimerStruct × Display) := do
  let timer := { timer with tick := timer.tick + 1 }
  let d ← timeGraphic d timer.tick (timer.freq.setWidth 32)
  .ok (timer, d)

def getTicks (timer : TimerStruct) : BitVec 32 := timer.tick

/-- The timer after an interrupt that finds the display in some state. -/
def interrupt (timer : TimerStruct) (d : Display) : Except Fault TimerStruct := do
  let (timer, _) ← timerHandler timer d
  .ok timer

/-- What a channel makes of the two bytes written to it, the low one first. -/
def reassembled (low high : Byte) : BitVec 32 := high.setWidth 32 <<< 8 ||| low.setWidth 32

/-- The bytes written to channel 0. -/
def channel0 (writes : List PortWrite) : List Byte :=
  (writes.filter fun write => decide (write.port = CANAL0)).map PortWrite.data

/-- The divisor is one that channel 0 is set to. -/
structure Programmed (timer : TimerStruct) (writes : List PortWrite) : Prop where
  divider_ne : timer.divider ≠ 0
  channel : ∃ low high, channel0 writes = [low, high] ∧ reassembled low high = timer.divider

/-- timer_init does not divide by zero, the channel gets its divisor, and from then on no
interrupt divides by zero. -/
def Programs (freqHz : BitVec 32) : Prop :=
  ∃ timer writes, timerInit freqHz = .ok (timer, writes) ∧ Programmed timer writes ∧
    ∀ displays, Always interrupt (fun timer => timer.freq ≠ 0) timer displays

section Ticks

variable {timer : TimerStruct}

theorem timeGraphic_returns (d : Display) (tick : BitVec 32) {freq : BitVec 32} (h : freq ≠ 0) :
    ∃ d', timeGraphic d tick freq = .ok d' := by
  have hcall : (Call.tick tick freq).WellFormed := h
  exact step_returns hcall

/-- An interrupt counts, and draws if the frequency is not zero. -/
theorem interrupt_spec (h : timer.freq ≠ 0) (d : Display) :
    interrupt timer d = .ok { timer with tick := timer.tick + 1 } := by
  have hfreq : timer.freq.setWidth 32 ≠ 0 := by
    intro hzero
    apply h
    have hcut := congrArg (BitVec.setWidth 16) hzero
    rw [BitVec.setWidth_setWidth_of_le _ (by decide), BitVec.setWidth_eq] at hcut
    exact hcut
  obtain ⟨d', hd'⟩ := timeGraphic_returns d (timer.tick + 1) hfreq
  rw [interrupt, timerHandler]
  dsimp only
  rw [hd', ok_bind, ok_bind]

/-- The frequency stays, so that every interrupt returns. -/
theorem always_interrupt (h : timer.freq ≠ 0) (displays : List Display) :
    Always interrupt (fun timer => timer.freq ≠ 0) timer displays :=
  always_of_invariant (fun _ h => h) (fun _ d _ h => ⟨_, interrupt_spec h d, h⟩) h

end Ticks

section Divisor

/-- The channel gets the low sixteen bits. -/
theorem reassembled_bytes (divider : BitVec 32) :
    reassembled (divider.setWidth 8) ((divider >>> 8).setWidth 8) =
      (divider.setWidth 16).setWidth 32 := by
  apply BitVec.eq_of_getLsbD_eq
  intro i hi
  simp only [reassembled]
  interval_cases i <;> simp

theorem reassembled_iff (divider : BitVec 32) :
    reassembled (divider.setWidth 8) ((divider >>> 8).setWidth 8) = divider ↔
      divider.toNat < 2 ^ 16 := by
  have hlt := divider.isLt
  rw [reassembled_bytes, ← BitVec.toNat_inj, BitVec.toNat_setWidth, BitVec.toNat_setWidth]
  omega

variable {freqHz : BitVec 32}

/-- The frequency in units of 18.2 Hz. -/
theorem scaled_toNat (h : freqHz.toNat ≤ 65535) :
    (freqHz * 100 / 1820).toNat = freqHz.toNat * 100 / 1820 := by
  have hhundred : (100 : BitVec 32).toNat = 100 := rfl
  have hscale : (1820 : BitVec 32).toNat = 1820 := rfl
  rw [BitVec.toNat_udiv, BitVec.toNat_mul, hhundred, hscale]
  omega

theorem scaled_eq_zero_iff (h : freqHz.toNat ≤ 65535) :
    freqHz * 100 / 1820 = 0 ↔ freqHz.toNat ≤ 18 := by
  have hzero : (0 : BitVec 32).toNat = 0 := rfl
  rw [← BitVec.toNat_inj, scaled_toNat h, hzero]
  omega

/-- The divisor is not zero, and fits the channel from 110 Hz on. -/
theorem divider_bounds (h : freqHz.toNat ≤ 65535) (hscaled : freqHz * 100 / 1820 ≠ 0) :
    TIMER_DIVIDER / (freqHz * 100 / 1820) ≠ 0 ∧
      ((TIMER_DIVIDER / (freqHz * 100 / 1820)).toNat < 2 ^ 16 ↔ 110 ≤ freqHz.toNat) := by
  have hzero : (0 : BitVec 32).toNat = 0 := rfl
  have hdividend : TIMER_DIVIDER.toNat = 360082 := rfl
  rw [ne_eq, scaled_eq_zero_iff h] at hscaled
  have hpos : 0 < freqHz.toNat * 100 / 1820 := by omega
  have hle : freqHz.toNat * 100 / 1820 ≤ 360082 := by omega
  have hquot : 0 < 360082 / (freqHz.toNat * 100 / 1820) := Nat.div_pos hle hpos
  rw [ne_eq, ← BitVec.toNat_inj, BitVec.toNat_udiv, scaled_toNat h, hdividend, hzero,
    Nat.div_lt_iff_lt_mul hpos]
  omega

/-- What timer_init makes of a frequency by which it does not divide by zero. -/
theorem programmed_iff (h : freqHz.toNat ≤ 65535) {timer : TimerStruct}
    {writes : List PortWrite} (hok : timerInit freqHz = .ok (timer, writes)) :
    timer.freq = freqHz.setWidth 16 ∧ (Programmed timer writes ↔ 110 ≤ freqHz.toNat) := by
  rw [timerInit] at hok
  dsimp only at hok
  by_cases hscaled : freqHz * 100 / 1820 = 0
  · rw [if_pos hscaled] at hok
    cases hok
  · obtain ⟨hne, hfits⟩ := divider_bounds h hscaled
    rw [if_neg hscaled] at hok
    cases hok
    refine ⟨rfl, ?_⟩
    rw [← hfits, ← reassembled_iff]
    constructor
    · rintro ⟨-, low, high, hchannel, hdivider⟩
      cases hchannel
      exact hdivider
    · intro hdivider
      exact ⟨hne, _, _, rfl, hdivider⟩

end Divisor

/-- Up to 18 Hz timer_init divides by zero, and from 110 Hz on it programs the timer with the
divisor it has computed, but not between. -/
theorem timerInit_iff {freqHz : BitVec 32} (hlow : 1 ≤ freqHz.toNat)
    (hhigh : freqHz.toNat ≤ 65535) :
    (timerInit freqHz = .error .undefined ↔ freqHz.toNat ≤ 18) ∧
      (Programs freqHz ↔ 110 ≤ freqHz.toNat) := by
  have hfault : timerInit freqHz = .error .undefined ↔ freqHz.toNat ≤ 18 := by
    rw [← scaled_eq_zero_iff hhigh, timerInit]
    dsimp only
    split
    · exact iff_of_true rfl (by assumption)
    · exact iff_of_false (fun h => by cases h) (by assumption)
  refine ⟨hfault, ?_⟩
  constructor
  · rintro ⟨timer, writes, hok, hprogrammed, -⟩
    exact (programmed_iff hhigh hok).2.mp hprogrammed
  · intro h
    have hscaled : freqHz * 100 / 1820 ≠ 0 := by
      rw [ne_eq, scaled_eq_zero_iff hhigh]
      omega
    obtain ⟨timer, writes, hok⟩ : ∃ timer writes, timerInit freqHz = .ok (timer, writes) :=
      ⟨_, _, if_neg hscaled⟩
    obtain ⟨hfreq, hprogrammed⟩ := programmed_iff hhigh hok
    refine ⟨timer, writes, hok, hprogrammed.mpr h, always_interrupt ?_⟩
    rw [hfreq, ne_eq, ← BitVec.toNat_inj, BitVec.toNat_setWidth]
    change ¬ freqHz.toNat % 2 ^ 16 = 0
    omega

/-- The frequency 1000 Hz. -/
theorem timerInit_iff_thousand : 1 ≤ (1000 : BitVec 32).toNat ∧
    (1000 : BitVec 32).toNat ≤ 65535 ∧ Programs 1000 := by
  have hlow : 1 ≤ (1000 : BitVec 32).toNat := by decide
  have hhigh : (1000 : BitVec 32).toNat ≤ 65535 := by decide
  exact ⟨hlow, hhigh, (timerInit_iff hlow hhigh).2.mpr (by decide)⟩

/-- The frequency kernel_main asks for: the divisor is 72016, and the channel gets 6480. -/
theorem timerInit_hundred :
    timerInit 100 = .ok (⟨0, 100, 72016⟩,
      [⟨COMMAND_REGISTER, 0x36⟩, ⟨CANAL0, 0x50⟩, ⟨CANAL0, 0x19⟩]) ∧
    reassembled 0x50 0x19 = 6480 ∧ ¬ Programs 100 := by
  have hok : timerInit 100 = .ok (⟨0, 100, 72016⟩,
      [⟨COMMAND_REGISTER, 0x36⟩, ⟨CANAL0, 0x50⟩, ⟨CANAL0, 0x19⟩]) := by rfl
  refine ⟨hok, by decide, ?_⟩
  rintro ⟨timer, writes, h, ⟨-, low, high, hchannel, hdivider⟩, -⟩
  rw [hok] at h
  cases h
  cases hchannel
  exact absurd hdivider (by decide)

end RathalOS.Timer
