import RathalOS.Keyboard

/-!
The shift variable of kernel/drivers/keyboard.c stands for two keys. The handler sets it
to what the last scan code of either key says, so that it is wrong while one of them is
held and the other was the last to be released.
-/
namespace RathalOS.ShiftKeys

open ByteMemory BoundedFifo Runs Keyboard

section Moves

/-- A key is pressed or released. -/
structure Move (K : Type) where
  key : K
  pressed : Bool

variable {K : Type}

def lastPressed (moves : List (Move K)) : Bool := (moves.getLast?.map Move.pressed).getD false

theorem lastPressed_concat (moves : List (Move K)) (m : Move K) :
    lastPressed (moves ++ [m]) = m.pressed := by
  simp [lastPressed]

variable [DecidableEq K] {moves : List (Move K)}

/-- Which keys are down after these moves, when none was before. -/
def down (moves : List (Move K)) : K → Bool :=
  moves.foldl (fun keys m => Function.update keys m.key m.pressed) fun _ => false

def Held (moves : List (Move K)) : Prop := ∃ key, down moves key = true

/-- Each key alternates press and release. -/
def Physical (moves : List (Move K)) : Prop :=
  AtEach (fun before m => down before m.key ≠ m.pressed) moves

/-- A key is held, and another one was released last. -/
def Overlooked (moves : List (Move K)) : Prop := Held moves ∧ lastPressed moves = false

theorem down_concat (moves : List (Move K)) (m : Move K) :
    down (moves ++ [m]) = Function.update (down moves) m.key m.pressed := by
  simp [down, List.foldl_append]

theorem physical_concat_iff (moves : List (Move K)) (m : Move K) :
    Physical (moves ++ [m]) ↔ Physical moves ∧ down moves m.key ≠ m.pressed :=
  atEach_concat

theorem held_of_lastPressed (h : lastPressed moves = true) : Held moves := by
  induction moves using List.reverseRecOn with
  | nil => cases h
  | append_singleton before m _ =>
    rw [lastPressed_concat] at h
    refine ⟨m.key, ?_⟩
    rw [down_concat, Function.update_self, h]

/-- One bit that takes the last move for all of them is right but for what it overlooks. -/
theorem lastPressed_eq_true_iff (h : ¬ Overlooked moves) :
    lastPressed moves = true ↔ Held moves := by
  constructor
  · exact held_of_lastPressed
  · intro hheld
    by_contra hreleased
    exact h ⟨hheld, Bool.eq_false_of_not_eq_true hreleased⟩

end Moves

inductive ShiftKey
  | left
  | right
  deriving DecidableEq

/-- What a scan code says about the shift keys. -/
def shiftMove (scanCode : Byte) : Option (Move ShiftKey) :=
  if scanCode = 0x2a then some ⟨.left, true⟩
  else if scanCode = 0xaa then some ⟨.left, false⟩
  else if scanCode = 0x36 then some ⟨.right, true⟩
  else if scanCode = 0xb6 then some ⟨.right, false⟩
  else none

/-- Without the state no scan code is read. -/
def eventMove : Event → Option (Move ShiftKey)
  | .key state scanCode => if state = 0 then none else shiftMove scanCode
  | .getc => none

def shiftMoves (events : List Event) : List (Move ShiftKey) := events.filterMap eventMove

/-- A character stored after these moves is the entry of its scan code, in the shifted
table when a shift key is held and in the other one when none is. -/
def Translated (moves : List (Move ShiftKey)) (scanCode c : Byte) : Prop :=
  ∃ h : scanCode.toNat < 128,
    (Held moves → c = initMap shiftMapKeys ⟨scanCode.toNat, h⟩) ∧
    (¬ Held moves → c = initMap mapKeys ⟨scanCode.toNat, h⟩)

def SeenTranslated (moves : List (Move ShiftKey)) : Event × Observation Byte → Prop
  | (.key _ scanCode, .stored c) => Translated moves scanCode c
  | _ => True

/-- Shift follows the keys: every character stored is the one the keys held say. -/
def FollowsKeys (events : List Event) (observations : List (Observation Byte)) : Prop :=
  AtEach (fun before seen => SeenTranslated (shiftMoves (before.map Prod.fst)) seen)
    (events.zip observations)

/-- The event stores no character, or both tables have the same one. -/
def SameEntries : Event → Prop
  | .key state scanCode => ∀ h : OrdinaryPress state scanCode,
    initMap shiftMapKeys ⟨scanCode.toNat, h.lt⟩ = initMap mapKeys ⟨scanCode.toNat, h.lt⟩
  | .getc => True

/-- No key that shift changes is pressed while a shift key is overlooked. -/
def ShiftKept (events : List Event) : Prop :=
  AtEach (fun before e => Overlooked (shiftMoves before) → SameEntries e) events

section Steps

variable {s : Driver} {moves : List (Move ShiftKey)} {state scanCode : Byte} {m : Move ShiftKey}

theorem ne_of_shiftMove (h : shiftMove scanCode = none) :
    ¬ (scanCode = 0x2a ∨ scanCode = 0x36) ∧ ¬ (scanCode = 0xaa ∨ scanCode = 0xb6) := by
  unfold shiftMove at h
  split_ifs at h with hleft hleft' hright hright'
  exact ⟨not_or.mpr ⟨hleft, hright⟩, not_or.mpr ⟨hleft', hright'⟩⟩

theorem not_ordinaryPress_of_move (h : eventMove (.key state scanCode) = some m) :
    ¬ OrdinaryPress state scanCode := by
  rintro ⟨hstate, hpress, hleft, hright⟩
  rw [eventMove, if_neg hstate, shiftMove, if_neg hleft] at h
  -- what is left are the releases, whose top bit is set
  split_ifs at h with hleft' hright'
  · rw [hleft'] at hpress
    cases hpress
  · rw [hright'] at hpress
    cases hpress

/-- The handler takes each move for both keys. -/
theorem keyboardHandler_move (s : Driver) (h : eventMove (.key state scanCode) = some m) :
    keyboardHandler s state scanCode = .ok ({ s with shift := m.pressed }, .ignored) := by
  rw [eventMove] at h
  rw [keyboardHandler]
  split_ifs at h with hstate
  rw [if_neg hstate]
  unfold shiftMove at h
  split_ifs at h with hleft hleft' hright hright'
  all_goals
    cases h
    subst scanCode
    rfl

theorem keyboardHandler_idle (s : Driver) (hmove : eventMove (.key state scanCode) = none)
    (h : ¬ OrdinaryPress state scanCode) :
    keyboardHandler s state scanCode = .ok (s, .ignored) := by
  rw [keyboardHandler]
  by_cases hstate : state = 0
  · exact if_pos hstate
  rw [eventMove, if_neg hstate] at hmove
  obtain ⟨hpressed, hreleased⟩ := ne_of_shiftMove hmove
  rw [if_neg hstate]
  by_cases hrelease : (scanCode >>> 7) &&& 1 ≠ 0
  · rw [if_pos hrelease, if_neg hreleased]
  · exact absurd ⟨hstate, not_not.mp hrelease, not_or.mp hpressed⟩ h

/-- The driver has its tables, and its shift variable is the last move. -/
def Reflects (s : Driver) (moves : List (Move ShiftKey)) : Prop :=
  s.shift = lastPressed moves ∧ s.map = initMap mapKeys ∧ s.shiftMap = initMap shiftMapKeys

/-- What the driver stores is right unless a shift key is overlooked. -/
theorem translated_entry_iff (h : Reflects s moves) (hcode : scanCode.toNat < 128) :
    Translated moves scanCode (s.entry ⟨scanCode.toNat, hcode⟩) ↔
      (Overlooked moves → initMap shiftMapKeys ⟨scanCode.toNat, hcode⟩ =
        initMap mapKeys ⟨scanCode.toNat, hcode⟩) := by
  obtain ⟨hshift, hmap, hshiftMap⟩ := h
  rw [Driver.entry, hshift, hmap, hshiftMap]
  by_cases hover : Overlooked moves
  · rw [if_pos hover.2]
    constructor
    · intro htranslated _
      obtain ⟨_, hheld, -⟩ := htranslated
      exact (hheld hover.1).symm
    · intro hsame
      exact ⟨hcode, fun _ => (hsame hover).symm, fun _ => rfl⟩
  · have hiff := lastPressed_eq_true_iff hover
    refine iff_of_true ⟨hcode, fun hheld => ?_, fun hnone => ?_⟩ fun h => absurd h hover
    · rw [hiff.mpr hheld]
      exact if_neg Bool.false_ne_true.symm
    · rw [if_pos (Bool.eq_false_of_not_eq_true fun hlast => hnone (hiff.mp hlast))]

theorem shiftMoves_concat_none {events : List Event} {e : Event} (h : eventMove e = none) :
    shiftMoves (events ++ [e]) = shiftMoves events := by
  simp [shiftMoves, h]

theorem shiftMoves_concat_some {events : List Event} {e : Event} (h : eventMove e = some m) :
    shiftMoves (events ++ [e]) = shiftMoves events ++ [m] := by
  simp [shiftMoves, h]

/-- One event keeps the shift variable at the last move, and what it stores is right just
when no shift key is overlooked, or both tables say the same. -/
theorem step_reflects {before : List Event} (h : Reflects s (shiftMoves before)) (e : Event) :
    ∃ s' o, step s e = .ok (s', o) ∧ Reflects s' (shiftMoves (before ++ [e])) ∧
      (SeenTranslated (shiftMoves before) (e, o) ↔
        (Overlooked (shiftMoves before) → SameEntries e)) := by
  cases e with
  | key state scanCode =>
    cases hmove : eventMove (.key state scanCode) with
    | some m =>
      have hnot := not_ordinaryPress_of_move hmove
      refine ⟨_, .ignored, keyboardHandler_move s hmove, ?_,
        iff_of_true trivial fun _ hpress => absurd hpress hnot⟩
      rw [shiftMoves_concat_some hmove]
      exact ⟨(lastPressed_concat _ m).symm, h.2⟩
    | none =>
      rw [shiftMoves_concat_none hmove]
      by_cases hordinary : OrdinaryPress state scanCode
      · obtain ⟨s', hstep, -, hshift, hmap, hshiftMap⟩ := keyboardHandler_ordinary s hordinary
        refine ⟨s', _, hstep, ?_, ?_⟩
        · rw [Reflects, hshift, hmap, hshiftMap]
          exact h
        · refine (translated_entry_iff h hordinary.lt).trans (imp_congr_right fun _ => ?_)
          exact ⟨fun hsame _ => hsame, fun hsame => hsame hordinary⟩
      · exact ⟨s, .ignored, keyboardHandler_idle s hmove hordinary, h,
          iff_of_true trivial fun _ hpress => absurd hpress hordinary⟩
  | getc =>
    rw [shiftMoves_concat_none rfl]
    refine ⟨(getc s).1, (getc s).2, rfl, ?_, iff_of_true ?_ fun _ => trivial⟩
    · rw [getc]
      split
      · exact h
      · exact h
    · cases (getc s).2 <;> trivial

end Steps

section Runs

theorem shiftKept_concat_iff (events : List Event) (e : Event) :
    ShiftKept (events ++ [e]) ↔
      ShiftKept events ∧ (Overlooked (shiftMoves events) → SameEntries e) :=
  atEach_concat

theorem followsKeys_concat_iff {events : List Event} {observations : List (Observation Byte)}
    (h : events.length = observations.length) (e : Event) (o : Observation Byte) :
    FollowsKeys (events ++ [e]) (observations ++ [o]) ↔
      FollowsKeys events observations ∧ SeenTranslated (shiftMoves events) (e, o) := by
  have hevents : (events.zip observations).map Prod.fst = events := List.map_fst_zip h.le
  rw [FollowsKeys, List.zip_append h, List.zip_cons_cons, List.zip_nil_left, atEach_concat,
    hevents]
  exact Iff.rfl

/-- A run of the driver never fails, its shift variable is always the last move, and
shift follows the keys as long as no key finds one overlooked. -/
theorem run_reflects (s : Driver) (events : List Event) :
    ∃ s' observations, run (keyboardInit s) events = .ok (s', observations) ∧
      Reflects s' (shiftMoves events) ∧
      (FollowsKeys events observations ↔ ShiftKept events) := by
  induction events using List.reverseRecOn with
  | nil => exact ⟨_, [], rfl, ⟨rfl, rfl, rfl⟩, iff_of_true (atEach_nil _) (atEach_nil _)⟩
  | append_singleton events e ih =>
    obtain ⟨s₁, observations, hrun, hreflects, hiff⟩ := ih
    obtain ⟨s', o, hstep, hnext, hseen⟩ := step_reflects hreflects e
    refine ⟨s', observations ++ [o], ?_, hnext, ?_⟩
    · rw [run_concat, hrun, ok_bind, runStep, hstep, ok_bind]
    · rw [followsKeys_concat_iff (run_answers hrun).length_eq, shiftKept_concat_iff, hiff, hseen]

/-- Shift follows the keys in exactly the runs in which no key that shift changes is pressed
while one shift key is held and the other was released last. In no run does the driver read
its tables past their end. -/
theorem shift_follows_iff (s : Driver) (events : List Event) :
    ∃ s' observations, run (keyboardInit s) events = .ok (s', observations) ∧
      List.Forall₂ Answers events observations ∧
      (FollowsKeys events observations ↔ ShiftKept events) := by
  obtain ⟨s', observations, hrun, -, hiff⟩ := run_reflects s events
  exact ⟨s', observations, hrun, run_answers hrun, hiff⟩

/-- Both shift keys are pressed, the left one is released, and a is typed. -/
def overlap : List Event := [.key 1 0x2a, .key 1 0x36, .key 1 0xaa, .key 1 0x1e]

theorem physical_overlap : Physical (shiftMoves overlap) := by
  change Physical
    ([] ++ [⟨ShiftKey.left, true⟩] ++ [⟨ShiftKey.right, true⟩] ++ [⟨ShiftKey.left, false⟩])
  rw [physical_concat_iff, physical_concat_iff, physical_concat_iff]
  exact ⟨⟨⟨atEach_nil _, by decide⟩, by decide⟩, by decide⟩

/-- The right key is still held, but a lower case letter is stored. -/
theorem shift_lost : Physical (shiftMoves overlap) ∧ ∃ s' observations,
    run (keyboardInit zeroDriver) overlap = .ok (s', observations) ∧
    observations = [.ignored, .ignored, .ignored, .stored 0x61] ∧
    ¬ FollowsKeys overlap observations := by
  refine ⟨physical_overlap, _, _, rfl, rfl, ?_⟩
  change ¬ FollowsKeys ([.key 1 0x2a, .key 1 0x36, .key 1 0xaa] ++ [.key 1 0x1e])
    ([.ignored, .ignored, .ignored] ++ [.stored 0x61])
  rw [followsKeys_concat_iff rfl]
  rintro ⟨-, _, hheld, -⟩
  have hupper : (0x61 : Byte) = initMap shiftMapKeys 0x1e := hheld ⟨.right, rfl⟩
  exact absurd hupper (by decide)

end Runs

end RathalOS.ShiftKeys
