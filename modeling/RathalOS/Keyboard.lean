import RathalOS.ByteMemory
import RathalOS.BoundedFifo
import RathalOS.Runs
import Mathlib.Data.List.Forall2

/-!
The keyboard driver, kernel/drivers/keyboard.c and key_map.c. The size of its buffer is
an unsigned char and can never reach KEY_BUFFER_SIZE: no key is ever dropped, and a
buffer that has just been filled is taken for an empty one. Up to that moment the
driver is a first-in first-out buffer.
-/
namespace RathalOS.Keyboard

open ByteMemory BoundedFifo Runs

def KEY_BUFFER_SIZE : ℕ := 256

/-- The assignments of init_keymap to map, by scan code. -/
def mapKeys : List (Fin 128 × Char) :=
  [(0x01, Char.ofNat 0x02), (0x02, '1'), (0x03, '2'), (0x04, '3'), (0x05, '4'), (0x06, '5'),
    (0x07, '6'), (0x08, '7'), (0x09, '8'), (0x0A, '9'), (0x0B, '0'), (0x10, 'q'), (0x11, 'w'),
    (0x12, 'e'), (0x13, 'r'), (0x14, 't'), (0x15, 'z'), (0x16, 'u'), (0x17, 'i'), (0x18, 'o'),
    (0x19, 'p'), (0x1e, 'a'), (0x1f, 's'), (0x20, 'd'), (0x21, 'f'), (0x22, 'g'), (0x23, 'h'),
    (0x24, 'j'), (0x25, 'k'), (0x26, 'l'), (0x2c, 'y'), (0x2d, 'x'), (0x2e, 'c'), (0x2f, 'v'),
    (0x30, 'b'), (0x31, 'n'), (0x32, 'm'), (0x27, Char.ofNat 0x82), (0x28, Char.ofNat 0x85),
    (0x1A, Char.ofNat 0x8A), (0x0c, Char.ofNat 0x27), (0x33, ','), (0x34, '.'), (0x35, '-'),
    (0x56, '<'), (0x1B, Char.ofNat 0x21), (0x4b, Char.ofNat 0x1B), (0x4d, Char.ofNat 0x1A),
    (0x48, Char.ofNat 0x18), (0x50, Char.ofNat 0x19), (0x1C, Char.ofNat 0x0D),
    (0x0e, Char.ofNat 0x08)]

/-- The assignments to shift_map. -/
def shiftMapKeys : List (Fin 128 × Char) :=
  [(0x01, Char.ofNat 0x1B), (0x02, '+'), (0x03, Char.ofNat 0x22), (0x04, '*'),
    (0x05, Char.ofNat 0x80), (0x06, '%'), (0x07, '&'), (0x08, '/'), (0x09, '('), (0x0A, ')'),
    (0x0B, '='), (0x10, 'Q'), (0x11, 'W'), (0x12, 'E'), (0x13, 'R'), (0x14, 'T'), (0x15, 'Z'),
    (0x16, 'U'), (0x17, 'I'), (0x18, 'O'), (0x19, 'P'), (0x1e, 'A'), (0x1f, 'S'), (0x20, 'D'),
    (0x21, 'F'), (0x22, 'G'), (0x23, 'H'), (0x24, 'J'), (0x25, 'K'), (0x26, 'L'), (0x2c, 'Y'),
    (0x2d, 'X'), (0x2e, 'C'), (0x2f, 'V'), (0x30, 'B'), (0x31, 'N'), (0x32, 'M'),
    (0x27, Char.ofNat 0x94), (0x28, Char.ofNat 0x84), (0x1a, Char.ofNat 0x81), (0x0c, '?'),
    (0x33, ';'), (0x34, ':'), (0x35, '_'), (0x1b, Char.ofNat 0x22), (0x1c, Char.ofNat 0x0d),
    (0x0e, Char.ofNat 0x08)]

/-- A table that is empty but for these keys. -/
def initMap (keys : List (Fin 128 × Char)) : Fin 128 → Byte :=
  keys.foldl (fun map key => Function.update map key.1 (BitVec.ofNat 8 key.2.toNat)) fun _ => 0

/-- The static variables of the driver and of its tables. The buffer is indexed by
unsigned chars. -/
structure Driver where
  fifoBuffer : Byte → Byte
  head : Byte
  tail : Byte
  size : Byte
  shift : Bool
  map : Fin 128 → Byte
  shiftMap : Fin 128 → Byte

def initKeymap (s : Driver) : Driver :=
  { s with
    map := initMap mapKeys
    shiftMap := initMap shiftMapKeys }

def keyboardInit (s : Driver) : Driver :=
  { initKeymap s with
    head := 0
    tail := 0
    shift := false }

def scan2char (s : Driver) (keyCode : Byte) (shift : Bool) : Except Fault Byte :=
  if h : keyCode.toNat < 128 then
    if shift = false then .ok (s.map ⟨keyCode.toNat, h⟩)
    else .ok (s.shiftMap ⟨keyCode.toNat, h⟩)
  else .error .undefined

/-- The handler, with the bytes it reads from the state and the data register. In the
first test the negation comes before the mask. -/
def keyboardHandler (s : Driver) (state scanCode : Byte) :
    Except Fault (Driver × Observation Byte) :=
  if state = 0 then .ok (s, .ignored)
  else if (scanCode >>> 7) &&& 1 ≠ 0 then
    if scanCode = 0xaa ∨ scanCode = 0xb6 then .ok ({ s with shift := false }, .ignored)
    else .ok (s, .ignored)
  else if scanCode = 0x2a ∨ scanCode = 0x36 then .ok ({ s with shift := true }, .ignored)
  else if KEY_BUFFER_SIZE ≤ s.size.toNat then .ok (s, .dropped)
  else do
    let c ← scan2char s scanCode s.shift
    .ok ({ s with
      fifoBuffer := Function.update s.fifoBuffer s.head c
      head := BitVec.ofNat 8 ((s.head + 1).toNat % KEY_BUFFER_SIZE)
      size := s.size + 1 }, .stored c)

/-- `getc`, which waits as long as the size is 0. -/
def getc (s : Driver) : Driver × Observation Byte :=
  if s.size = 0 then (s, .blocked)
  else
    ({ s with
      tail := BitVec.ofNat 8 ((s.tail + 1).toNat % KEY_BUFFER_SIZE)
      size := s.size - 1 }, .returned (s.fifoBuffer s.tail))

inductive Event
  | key (state scanCode : Byte)
  | getc

def step (s : Driver) : Event → Except Fault (Driver × Observation Byte)
  | .key state scanCode => keyboardHandler s state scanCode
  | .getc => .ok (getc s)

/-- One step of a run, with what was seen so far. -/
def runStep (r : Driver × List (Observation Byte)) (e : Event) :
    Except Fault (Driver × List (Observation Byte)) := do
  let (s, o) ← step r.1 e
  .ok (s, r.2 ++ [o])

def run (s : Driver) (events : List Event) : Except Fault (Driver × List (Observation Byte)) :=
  events.foldlM runStep (s, [])

/-- A press of a key other than shift. -/
def OrdinaryPress (state scanCode : Byte) : Prop :=
  state ≠ 0 ∧ (scanCode >>> 7) &&& 1 = 0 ∧ scanCode ≠ 0x2a ∧ scanCode ≠ 0x36

instance (state scanCode : Byte) : Decidable (OrdinaryPress state scanCode) := by
  unfold OrdinaryPress
  infer_instance

/-- The event stores or takes a character. -/
def Event.Touches : Event → Prop
  | .key state scanCode => OrdinaryPress state scanCode
  | .getc => True

/-- An ordinary key is stored or dropped, and getc returns or waits. -/
def Answers : Event → Observation Byte → Prop
  | .key state scanCode, .stored _ => OrdinaryPress state scanCode
  | .key state scanCode, .dropped => OrdinaryPress state scanCode
  | .key state scanCode, .ignored => ¬ OrdinaryPress state scanCode
  | .getc, .returned _ => True
  | .getc, .blocked => True
  | _, _ => False

/-- How many characters a buffer of 256 has unread after an event. -/
def unreadStep (n : ℕ) : Event → ℕ
  | .key state scanCode => if OrdinaryPress state scanCode ∧ n < KEY_BUFFER_SIZE then n + 1 else n
  | .getc => n - 1

def unreadAfter (events : List Event) : ℕ := events.foldl unreadStep 0

/-- Nothing is stored or taken while the buffer is full. -/
def NeverFull (events : List Event) : Prop :=
  ∀ before e, before ++ [e] <+: events → e.Touches → unreadAfter before ≠ KEY_BUFFER_SIZE

section Steps

variable {s : Driver} {observations : List (Observation Byte)} {n : ℕ}

def Driver.ring (s : Driver) : Ring 8 Byte := ⟨s.fifoBuffer, s.head, s.tail, s.size⟩

/-- Taking the remainder changes nothing in an unsigned char. -/
theorem ofNat_mod_bufferSize (b : Byte) : BitVec.ofNat 8 (b.toNat % KEY_BUFFER_SIZE) = b := by
  apply BitVec.eq_of_toNat_eq
  have hb := b.isLt
  rw [BitVec.toNat_ofNat, KEY_BUFFER_SIZE]
  omega

theorem keyboardHandler_other (s : Driver) {state scanCode : Byte}
    (h : ¬ OrdinaryPress state scanCode) :
    ∃ s', keyboardHandler s state scanCode = .ok (s', .ignored) ∧ s'.ring = s.ring := by
  unfold keyboardHandler
  by_cases hstate : state = 0
  · exact ⟨s, if_pos hstate, rfl⟩
  rw [if_neg hstate]
  by_cases hrelease : (scanCode >>> 7) &&& 1 ≠ 0
  · rw [if_pos hrelease]
    by_cases hshift : scanCode = 0xaa ∨ scanCode = 0xb6
    · exact ⟨_, if_pos hshift, rfl⟩
    · exact ⟨_, if_neg hshift, rfl⟩
  · rw [if_neg hrelease]
    have hshift : scanCode = 0x2a ∨ scanCode = 0x36 := by
      by_contra hnot
      rw [not_or] at hnot
      exact h ⟨hstate, not_not.mp hrelease, hnot⟩
    exact ⟨_, if_pos hshift, rfl⟩

/-- The scan code of a press is an index of the tables. -/
theorem OrdinaryPress.lt {state scanCode : Byte} (h : OrdinaryPress state scanCode) :
    scanCode.toNat < 128 := by
  have htop := congrArg BitVec.toNat h.2.1
  have hlt := scanCode.isLt
  rw [BitVec.toNat_and, BitVec.toNat_ushiftRight] at htop
  change (scanCode.toNat >>> 7) &&& 1 = 0 at htop
  rw [Nat.and_one_is_mod, Nat.shiftRight_eq_div_pow] at htop
  omega

/-- The entry for a scan code in the table that shift selects. -/
def Driver.entry (s : Driver) (i : Fin 128) : Byte :=
  if s.shift = false then s.map i else s.shiftMap i

theorem scan2char_of_lt (s : Driver) {scanCode : Byte} (h : scanCode.toNat < 128) :
    scan2char s scanCode s.shift = .ok (s.entry ⟨scanCode.toNat, h⟩) := by
  rw [scan2char, dif_pos h, Driver.entry]
  split <;> rfl

/-- The size is below 256 whatever it is, so that an ordinary key is always stored. -/
theorem keyboardHandler_ordinary (s : Driver) {state scanCode : Byte}
    (h : OrdinaryPress state scanCode) :
    ∃ s', keyboardHandler s state scanCode =
        .ok (s', .stored (s.entry ⟨scanCode.toNat, h.lt⟩)) ∧
      s'.ring = s.ring.push (s.entry ⟨scanCode.toNat, h.lt⟩) ∧
      s'.shift = s.shift ∧ s'.map = s.map ∧ s'.shiftMap = s.shiftMap := by
  have hentry := scan2char_of_lt s h.lt
  generalize s.entry ⟨scanCode.toNat, h.lt⟩ = c at hentry ⊢
  obtain ⟨hstate, hpress, hleft, hright⟩ := h
  have hroom : ¬ KEY_BUFFER_SIZE ≤ s.size.toNat := Nat.not_le.mpr s.size.isLt
  refine ⟨{ s with
    fifoBuffer := Function.update s.fifoBuffer s.head c
    head := BitVec.ofNat 8 ((s.head + 1).toNat % KEY_BUFFER_SIZE)
    size := s.size + 1 }, ?_, ?_, rfl, rfl, rfl⟩
  · rw [keyboardHandler, if_neg hstate, if_neg (not_not.mpr hpress),
      if_neg (not_or.mpr ⟨hleft, hright⟩), if_neg hroom, hentry, ok_bind]
  · simp only [Driver.ring, Ring.push, ofNat_mod_bufferSize]

theorem getc_empty (h : s.size = 0) : getc s = (s, .blocked) := if_pos h

theorem getc_ready (h : s.size ≠ 0) :
    (getc s).2 = .returned s.ring.front ∧ (getc s).1.ring = s.ring.pop := by
  rw [getc, if_neg h]
  refine ⟨rfl, ?_⟩
  simp only [Driver.ring, Ring.pop, ofNat_mod_bufferSize]

/-- What was seen so far is what a buffer of 256 does, and its n unread characters are
those of the ring. -/
def Tracks (s : Driver) (observations : List (Observation Byte)) (n : ℕ) : Prop :=
  ∃ unread, replay KEY_BUFFER_SIZE observations = some unread ∧ Holds s.ring unread ∧
    unread.length = n

/-- A step that does not find the buffer full does what the buffer should do. -/
theorem step_tracks (h : Tracks s observations n) (e : Event)
    (hroom : e.Touches → n ≠ KEY_BUFFER_SIZE) :
    ∃ s' o, step s e = .ok (s', o) ∧ Tracks s' (observations ++ [o]) (unreadStep n e) := by
  obtain ⟨unread, hreplay, hholds, hlength⟩ := h
  have hle := hholds.length_le
  have hcap : KEY_BUFFER_SIZE = 2 ^ 8 := rfl
  cases e with
  | key state scanCode =>
    by_cases hordinary : OrdinaryPress state scanCode
    · have hlt : unread.length < KEY_BUFFER_SIZE := by
        have := hroom hordinary
        omega
      obtain ⟨s', hstep, hring, -⟩ := keyboardHandler_ordinary s hordinary
      generalize s.entry ⟨scanCode.toNat, hordinary.lt⟩ = c at hstep hring
      refine ⟨s', .stored c, hstep, unread ++ [c], ?_, ?_, ?_⟩
      · rw [replay_concat, hreplay, Option.bind_some, observe, if_pos hlt]
      · rw [hring]
        exact hholds.push hlt
      · rw [List.length_append, List.length_singleton, unreadStep,
          if_pos ⟨hordinary, hlength ▸ hlt⟩, hlength]
    · obtain ⟨s', hstep, hring⟩ := keyboardHandler_other s hordinary
      refine ⟨s', .ignored, hstep, unread, ?_, ?_, ?_⟩
      · rw [replay_concat, hreplay, Option.bind_some, observe]
      · rw [hring]
        exact hholds
      · rw [unreadStep, if_neg (fun hand => hordinary hand.1), hlength]
  | getc =>
    have hfull : unread.length ≠ 2 ^ 8 := by
      rw [hlength, ← hcap]
      exact hroom trivial
    refine ⟨(getc s).1, (getc s).2, rfl, ?_⟩
    have hzero := hholds.size_eq_zero_iff
    cases unread with
    | nil =>
      rw [getc_empty (hzero.mpr (Or.inl rfl))]
      refine ⟨[], ?_, hholds, ?_⟩
      · rw [replay_concat, hreplay, Option.bind_some, observe, if_pos rfl]
      · rw [← hlength]
        rfl
    | cons a rest =>
      have hne : s.size ≠ 0 := by
        intro hsize
        rcases hzero.mp hsize with hempty | hlong
        · exact List.cons_ne_nil _ _ hempty
        · exact hfull hlong
      obtain ⟨hseen, hring⟩ := getc_ready hne
      rw [hholds.front] at hseen
      refine ⟨rest, ?_, ?_, ?_⟩
      · rw [hseen, replay_concat, hreplay, Option.bind_some, observe, List.head?_cons,
          if_pos rfl, List.tail_cons]
      · rw [hring]
        exact hholds.pop
      · rw [unreadStep, ← hlength, List.length_cons, Nat.add_sub_cancel]

/-- On a full buffer a key is stored and getc blocks, which no buffer of 256 does. -/
theorem step_full (h : Tracks s observations KEY_BUFFER_SIZE) {e : Event} (htouches : e.Touches) :
    ∃ s' o, step s e = .ok (s', o) ∧ replay KEY_BUFFER_SIZE (observations ++ [o]) = none := by
  obtain ⟨unread, hreplay, hholds, hlength⟩ := h
  cases e with
  | key state scanCode =>
    obtain ⟨s', hstep, -⟩ := keyboardHandler_ordinary s htouches
    refine ⟨s', _, hstep, ?_⟩
    rw [replay_concat, hreplay, Option.bind_some, observe, if_neg (by omega)]
  | getc =>
    have hsize : s.size = 0 := hholds.size_eq_zero_iff.mpr (Or.inr hlength)
    refine ⟨s, .blocked, congrArg Except.ok (getc_empty hsize), ?_⟩
    have hne : unread ≠ [] := by
      intro hempty
      rw [hempty] at hlength
      exact absurd hlength (by decide)
    rw [replay_concat, hreplay, Option.bind_some, observe, if_neg hne]

theorem step_answers (s : Driver) (e : Event) :
    ∃ s' o, step s e = .ok (s', o) ∧ Answers e o := by
  cases e with
  | key state scanCode =>
    by_cases hordinary : OrdinaryPress state scanCode
    · obtain ⟨s', hstep, -⟩ := keyboardHandler_ordinary s hordinary
      exact ⟨s', _, hstep, hordinary⟩
    · obtain ⟨s', hstep, -⟩ := keyboardHandler_other s hordinary
      exact ⟨s', .ignored, hstep, hordinary⟩
  | getc =>
    refine ⟨(getc s).1, (getc s).2, rfl, ?_⟩
    by_cases hsize : s.size = 0
    · rw [getc_empty hsize]
      trivial
    · rw [(getc_ready hsize).1]
      trivial

end Steps

section Runs

theorem run_concat (s : Driver) (events : List Event) (e : Event) :
    run s (events ++ [e]) = run s events >>= fun r => runStep r e := by
  simp [run, List.foldlM_append]

theorem unreadAfter_concat (events : List Event) (e : Event) :
    unreadAfter (events ++ [e]) = unreadStep (unreadAfter events) e := by
  simp [unreadAfter, List.foldl_append]

theorem neverFull_concat_iff (events : List Event) (e : Event) :
    NeverFull (events ++ [e]) ↔
      NeverFull events ∧ (e.Touches → unreadAfter events ≠ KEY_BUFFER_SIZE) :=
  atEach_concat

/-- A run of the driver never fails. As long as it does not touch a full buffer it does
what the buffer should do, and from then on it does not. -/
theorem run_tracks (s : Driver) (hsize : s.size = 0) (events : List Event) :
    ∃ s' observations, run (keyboardInit s) events = .ok (s', observations) ∧
      (NeverFull events → Tracks s' observations (unreadAfter events)) ∧
      (¬ NeverFull events → replay KEY_BUFFER_SIZE observations = none) := by
  induction events using List.reverseRecOn with
  | nil =>
    exact ⟨keyboardInit s, [], rfl, fun _ => ⟨[], rfl, holds_nil rfl hsize, rfl⟩,
      fun h => absurd (atEach_nil _) h⟩
  | append_singleton events e ih =>
    obtain ⟨s₁, observations, hrun, htracks, hlost⟩ := ih
    rw [run_concat, hrun, ok_bind, neverFull_concat_iff, unreadAfter_concat]
    by_cases hbelow : NeverFull events
    · by_cases hroom : e.Touches → unreadAfter events ≠ KEY_BUFFER_SIZE
      · obtain ⟨s', o, hstep, hnext⟩ := step_tracks (htracks hbelow) e hroom
        refine ⟨s', observations ++ [o], ?_, fun _ => hnext, fun h => absurd ⟨hbelow, hroom⟩ h⟩
        rw [runStep, hstep, ok_bind]
      · obtain ⟨htouches, hfull⟩ := Classical.not_imp.mp hroom
        have hfull' := htracks hbelow
        rw [not_not.mp hfull] at hfull'
        obtain ⟨s', o, hstep, hnone⟩ := step_full hfull' htouches
        refine ⟨s', observations ++ [o], ?_, fun h => absurd h.2 hroom, fun _ => hnone⟩
        rw [runStep, hstep, ok_bind]
    · -- what was seen already is lost for good
      obtain ⟨s', o, hstep, -⟩ := step_answers s₁ e
      refine ⟨s', observations ++ [o], ?_, fun h => absurd h.1 hbelow, fun _ => ?_⟩
      · rw [runStep, hstep, ok_bind]
      · rw [replay_concat, hlost hbelow, Option.bind_none]

theorem run_answers {s s' : Driver} {events : List Event}
    {observations : List (Observation Byte)} (h : run s events = .ok (s', observations)) :
    List.Forall₂ Answers events observations := by
  induction events using List.reverseRecOn generalizing s' observations with
  | nil =>
    cases h
    exact List.Forall₂.nil
  | append_singleton events e ih =>
    rw [run_concat] at h
    cases hrun : run s events with
    | error fault =>
      rw [hrun] at h
      cases h
    | ok r =>
      obtain ⟨s₁, o, hstep, hanswers⟩ := step_answers r.1 e
      rw [hrun, ok_bind, runStep, hstep] at h
      cases h
      exact List.rel_append (ih hrun) (List.Forall₂.cons hanswers List.Forall₂.nil)

/-- The driver is a lossless buffer of 256 characters in exactly the runs that touch it
only while it is not full. -/
theorem run_lossless_iff (s : Driver) (hsize : s.size = 0) (events : List Event) :
    ∃ s' observations, run (keyboardInit s) events = .ok (s', observations) ∧
      List.Forall₂ Answers events observations ∧
      (Lossless KEY_BUFFER_SIZE observations ↔ NeverFull events) := by
  obtain ⟨s', observations, hrun, htracks, hlost⟩ := run_tracks s hsize events
  refine ⟨s', observations, hrun, run_answers hrun, ?_⟩
  constructor
  · intro h
    by_contra hfull
    exact h (hlost hfull)
  · intro h
    obtain ⟨unread, hreplay, -⟩ := htracks h
    rw [Lossless, hreplay]
    exact Option.some_ne_none _

/-- The variables of the driver before it is initialised. -/
def zeroDriver : Driver := ⟨fun _ => 0, 0, 0, 0, false, fun _ => 0, fun _ => 0⟩

/-- Fewer than 256 events cannot fill the buffer. -/
theorem unreadAfter_le_length (events : List Event) : unreadAfter events ≤ events.length := by
  induction events using List.reverseRecOn with
  | nil => exact Nat.le_refl _
  | append_singleton events e ih =>
    rw [unreadAfter_concat, List.length_append, List.length_singleton]
    cases e with
    | key state scanCode =>
      rw [unreadStep]
      split <;> omega
    | getc =>
      rw [unreadStep]
      omega

theorem neverFull_of_length {events : List Event} (h : events.length ≤ KEY_BUFFER_SIZE) :
    NeverFull events := by
  intro before e hpre _
  have hlength := hpre.length_le
  have hle := unreadAfter_le_length before
  rw [List.length_append, List.length_singleton] at hlength
  omega

/-- Two keys and a getc. -/
theorem run_lossless_iff_two : ∃ s' observations,
    run (keyboardInit zeroDriver) [.key 1 0x1e, .key 1 0x30, .getc] = .ok (s', observations) ∧
    Lossless KEY_BUFFER_SIZE observations := by
  obtain ⟨s', observations, hrun, -, hiff⟩ :=
    run_lossless_iff zeroDriver rfl [.key 1 0x1e, .key 1 0x30, .getc]
  exact ⟨s', observations, hrun, hiff.mpr (neverFull_of_length (by decide))⟩

/-- After 256 keys getc waits for another one. -/
theorem run_overflow : ∃ s' observations,
    run (keyboardInit zeroDriver) (List.replicate 256 (.key 1 0x1e) ++ [.getc]) =
      .ok (s', observations) ∧
    observations = List.replicate 256 (.stored 0x61) ++ [.blocked] ∧
    ¬ Lossless KEY_BUFFER_SIZE observations := by
  have hseen : (run (keyboardInit zeroDriver) (List.replicate 256 (.key 1 0x1e) ++ [.getc])).map
      Prod.snd = .ok (List.replicate 256 (.stored 0x61) ++ [.blocked]) := by
    decide +kernel
  cases hrun : run (keyboardInit zeroDriver) (List.replicate 256 (.key 1 0x1e) ++ [.getc]) with
  | error e =>
    rw [hrun] at hseen
    cases hseen
  | ok r =>
    rw [hrun] at hseen
    have hobservations := Except.ok.inj hseen
    refine ⟨r.1, r.2, rfl, hobservations, ?_⟩
    rw [hobservations]
    decide +kernel

end Runs

end RathalOS.Keyboard
