import RathalOS.Timer

/-!
Waiting for the timer, sleep of kernel/drivers/timer.c. The milliseconds are divided before
they are multiplied by the frequency, which loses what is less than a second; and the number
of ticks to wait for is compared with a counter that wraps around.
-/
namespace RathalOS.Sleeping

open ByteMemory Screen Runs Timer

/-- A call of sleep: the local variable total, whether it has returned, and how many ticks
have occurred since it began, which no function reads. -/
structure Sleep where
  timer : TimerStruct
  total : BitVec 32
  returned : Bool
  elapsed : ℕ

/-- What happens while sleep is running: an interrupt of the timer, or a test of the loop. -/
inductive Event
  | tick (d : Display)
  | test

def step (s : Sleep) : Event → Except Fault Sleep
  | .tick d => do
    let timer ← interrupt s.timer d
    .ok { s with timer := timer, elapsed := s.elapsed + 1 }
  | .test =>
    if getTicks s.timer < s.total then .ok s else .ok { s with returned := true }

/-- `sleep` before its loop. -/
def sleep (timer : TimerStruct) (ms : BitVec 32) : Sleep where
  timer := timer
  total := getTicks timer + timer.freq.setWidth 32 * (ms / 1000)
  returned := false
  elapsed := 0

/-- The ticks in a number of milliseconds. -/
def due (timer : TimerStruct) (ms : BitVec 32) : ℕ := timer.freq.toNat * ms.toNat / 1000

/-- The ticks in the whole seconds among them, for which sleep waits. -/
def waited (timer : TimerStruct) (ms : BitVec 32) : ℕ := timer.freq.toNat * (ms.toNat / 1000)

/-- Whatever happens, sleep has returned only if enough ticks have occurred. -/
def WaitsLongEnough (timer : TimerStruct) (ms : BitVec 32) : Prop :=
  ∀ events, Throughout step (fun s => s.returned = true → due timer ms ≤ s.elapsed)
    (sleep timer ms) events

section Arithmetic

variable {timer : TimerStruct} {ms : BitVec 32}

theorem waited_le_due (timer : TimerStruct) (ms : BitVec 32) : waited timer ms ≤ due timer ms := by
  rw [waited, due, Nat.le_div_iff_mul_le (by decide), Nat.mul_assoc]
  exact Nat.mul_le_mul_left _ (Nat.div_mul_le_self _ _)

/-- Nothing is lost if the milliseconds beyond the last second make up no tick. -/
theorem due_eq_waited_iff :
    due timer ms = waited timer ms ↔ timer.freq.toNat * (ms.toNat % 1000) < 1000 := by
  have hsplit : timer.freq.toNat * ms.toNat =
      1000 * waited timer ms + timer.freq.toNat * (ms.toNat % 1000) := by
    rw [waited, Nat.mul_left_comm, ← Nat.mul_add, Nat.div_add_mod]
  rw [due, hsplit]
  omega

theorem total_toNat (hdue : due timer ms < 2 ^ 31) :
    (sleep timer ms).total.toNat = (timer.tick.toNat + waited timer ms) % 2 ^ 32 := by
  have hle := waited_le_due timer ms
  have hfreq := timer.freq.isLt
  have hthousand : (1000 : BitVec 32).toNat = 1000 := rfl
  change (timer.tick + timer.freq.setWidth 32 * (ms / 1000)).toNat = _
  rw [BitVec.toNat_add, BitVec.toNat_mul, BitVec.toNat_udiv, BitVec.toNat_setWidth, hthousand,
    Nat.mod_eq_of_lt (by omega : timer.freq.toNat < 2 ^ 32)]
  change (timer.tick.toNat + waited timer ms % 2 ^ 32) % 2 ^ 32 = _
  rw [Nat.mod_eq_of_lt (by omega : waited timer ms < 2 ^ 32)]

end Arithmetic

section Waiting

variable {timer : TimerStruct} {ms : BitVec 32} {s s' : Sleep}

/-- The state of a call after some ticks. -/
structure Elapsed (timer : TimerStruct) (ms : BitVec 32) (s : Sleep) : Prop where
  freq : s.timer.freq = timer.freq
  tick : s.timer.tick = timer.tick + BitVec.ofNat 32 s.elapsed
  total : s.total = (sleep timer ms).total

theorem Elapsed.step (h : Elapsed timer ms s) {e : Event} (hfreq : timer.freq ≠ 0)
    (hok : step s e = .ok s') : Elapsed timer ms s' := by
  cases e with
  | tick d =>
    rw [Sleeping.step, interrupt_spec (h.freq ▸ hfreq), ok_bind] at hok
    cases hok
    refine ⟨h.freq, ?_, h.total⟩
    change s.timer.tick + 1 = _
    rw [h.tick, BitVec.add_assoc]
    exact congrArg (timer.tick + ·) (BitVec.ofNat_add s.elapsed 1).symm
  | test =>
    rw [Sleeping.step] at hok
    split at hok
    · cases hok
      exact h
    · cases hok
      exact ⟨h.freq, h.tick, h.total⟩

theorem sleep_elapsed (timer : TimerStruct) (ms : BitVec 32) :
    Elapsed timer ms (sleep timer ms) where
  freq := rfl
  tick := (BitVec.add_zero timer.tick).symm
  total := rfl

/-- The loop ends when the sum of the ticks, wrapped around, has reached the total. -/
theorem Elapsed.test_iff (h : Elapsed timer ms s) (hdue : due timer ms < 2 ^ 31) :
    getTicks s.timer < s.total ↔ (timer.tick.toNat + s.elapsed) % 2 ^ 32 <
      (timer.tick.toNat + waited timer ms) % 2 ^ 32 := by
  rw [getTicks, BitVec.lt_def, h.total, total_toNat hdue, h.tick, BitVec.toNat_add,
    BitVec.toNat_ofNat, Nat.add_mod_mod]

/-- No tick is lost and the total does not wrap: the loop ends with the last tick. -/
theorem waits_of_whole (hfreq : timer.freq ≠ 0) (hdue : due timer ms < 2 ^ 31)
    (hwhole : due timer ms = waited timer ms)
    (hwrap : timer.tick.toNat + waited timer ms < 2 ^ 32) : WaitsLongEnough timer ms := by
  intro events
  refine throughout_of_invariant (I := fun s => Elapsed timer ms s ∧
    (s.returned = true → due timer ms ≤ s.elapsed)) (fun s h => h.2) (fun s e s' h hok => ?_)
    ⟨sleep_elapsed timer ms, fun h => absurd h Bool.false_ne_true⟩ events
  refine ⟨h.1.step hfreq hok, fun hreturned => ?_⟩
  cases e with
  | tick d =>
    rw [Sleeping.step, interrupt_spec (h.1.freq ▸ hfreq), ok_bind] at hok
    cases hok
    exact (h.2 hreturned).trans (Nat.le_succ _)
  | test =>
    rw [Sleeping.step] at hok
    split at hok
    · cases hok
      exact h.2 hreturned
    · rename_i htest
      cases hok
      rw [h.1.test_iff hdue] at htest
      change due timer ms ≤ s.elapsed
      by_contra hearly
      omega

/-- Ticks before the rest of a run. -/
theorem throughout_ticks {P : Sleep → Prop} (hfreq : timer.freq ≠ 0) (d : Display) {n : ℕ}
    {rest : List Event} (h : Elapsed timer ms s)
    (hrun : Throughout step P s (List.replicate n (.tick d) ++ rest)) :
    ∃ s', Elapsed timer ms s' ∧ s'.elapsed = s.elapsed + n ∧ Throughout step P s' rest := by
  induction n generalizing s with
  | zero => exact ⟨s, h, rfl, hrun⟩
  | succ n ih =>
    have hok : step s (.tick d) = .ok
        { s with
          timer := { s.timer with tick := s.timer.tick + 1 }
          elapsed := s.elapsed + 1 } := by
      rw [Sleeping.step, interrupt_spec (h.freq ▸ hfreq), ok_bind]
    obtain ⟨s', hs', helapsed, hrest⟩ := ih (h.step hfreq hok) (hrun.2 _ hok)
    refine ⟨s', hs', ?_, hrest⟩
    rw [helapsed, Nat.add_right_comm, Nat.add_assoc]

/-- A test that finds the total reached too early ends the loop. -/
theorem not_waits (hfreq : timer.freq ≠ 0) (hdue : due timer ms < 2 ^ 31) {n : ℕ}
    (hearly : n < due timer ms) (hreached : ¬ (timer.tick.toNat + n) % 2 ^ 32 <
      (timer.tick.toNat + waited timer ms) % 2 ^ 32) : ¬ WaitsLongEnough timer ms := by
  intro h
  obtain ⟨s, hs, helapsed, hrun⟩ := throughout_ticks hfreq Layouts.unset
    (sleep_elapsed timer ms) (h (List.replicate n (.tick Layouts.unset) ++ [.test]))
  have hcount : s.elapsed = n := helapsed.trans (Nat.zero_add n)
  have htest : ¬ getTicks s.timer < s.total := by
    rw [hs.test_iff hdue, hcount]
    exact hreached
  have hlate := hrun.2 { s with returned := true } (if_neg htest) rfl
  change due timer ms ≤ s.elapsed at hlate
  omega

end Waiting

/-- sleep waits for the ticks that are due if there are none, or if the milliseconds beyond
the last second make up no tick and the counter does not wrap around before the end; and
otherwise it may return too early. -/
theorem waits_iff {timer : TimerStruct} {ms : BitVec 32} (hfreq : timer.freq ≠ 0)
    (hdue : due timer ms < 2 ^ 31) :
    WaitsLongEnough timer ms ↔ due timer ms = 0 ∨
      (timer.freq.toNat * (ms.toNat % 1000) < 1000 ∧
        timer.tick.toNat + timer.freq.toNat * (ms.toNat / 1000) < 2 ^ 32) := by
  rw [← due_eq_waited_iff]
  change _ ↔ due timer ms = 0 ∨ (due timer ms = waited timer ms ∧
    timer.tick.toNat + waited timer ms < 2 ^ 32)
  have htick := timer.tick.isLt
  have hle := waited_le_due timer ms
  constructor
  · intro h
    by_contra hnot
    rw [not_or] at hnot
    obtain ⟨hsome, hnot⟩ := hnot
    by_cases hwrap : timer.tick.toNat + waited timer ms < 2 ^ 32
    · -- The loop ends with the ticks of the whole seconds, which are too few.
      have hlost : waited timer ms < due timer ms := by omega
      exact not_waits hfreq hdue hlost (lt_irrefl _) h
    · -- The total is below the counter from the start.
      exact not_waits hfreq hdue (n := 0) (by omega) (by omega) h
  · rintro (hzero | ⟨hwhole, hwrap⟩)
    · intro events
      exact throughout_of_invariant (I := fun _ => True)
        (fun s _ _ => hzero ▸ Nat.zero_le s.elapsed) (fun _ _ _ _ _ => trivial) trivial events
    · exact waits_of_whole hfreq hdue hwhole hwrap

/-- Two seconds at 100 Hz. -/
theorem waits_iff_seconds : (100 : BitVec 16) ≠ 0 ∧ due ⟨5, 100, 72016⟩ 2000 < 2 ^ 31 ∧
    WaitsLongEnough ⟨5, 100, 72016⟩ 2000 := by
  have hfreq : (100 : BitVec 16) ≠ 0 := by decide
  have hdue : due ⟨5, 100, 72016⟩ 2000 < 2 ^ 31 := by decide
  exact ⟨hfreq, hdue, (waits_iff hfreq hdue).mpr (Or.inr ⟨by decide, by decide⟩)⟩

/-- Half a second at 100 Hz is no tick, and before the counter wraps around even a second is
none. -/
theorem sleep_early :
    due ⟨5, 100, 72016⟩ 500 = 50 ∧ ¬ WaitsLongEnough ⟨5, 100, 72016⟩ 500 ∧
    due ⟨0xFFFFFFF0, 100, 72016⟩ 1000 = 100 ∧
    ¬ WaitsLongEnough ⟨0xFFFFFFF0, 100, 72016⟩ 1000 := by
  refine ⟨by decide, ?_, by decide, ?_⟩
  · exact not_waits (n := 0) (by decide) (by decide) (by decide) (by decide)
  · exact not_waits (n := 0) (by decide) (by decide) (by decide) (by decide)

end RathalOS.Sleeping
