import RathalOS.Layouts
import RathalOS.Runs

/-!
Runs of the display, kernel/display/display.c. Whatever is displayed, and whenever the
timer draws between two calls, the cursor stays before the last cell of the screen and no
cell beyond the screen is written.
-/
namespace RathalOS.ScreenRuns

open ByteMemory Consoles Screen Layouts Runs

/-- A call of the driver. A tick is a call of time_graphic by the timer. -/
inductive Call
  | displayCarac (carac : Byte)
  | displayString (string : Text)
  | printInt (num base : BitVec 32)
  | printf (fmt : Text) (args : List Arg)
  | tick (tick freq : BitVec 32)

def step (d : Display) : Call → Except Fault Display
  | .displayCarac carac => .ok (displayCarac d carac)
  | .displayString string => .ok (displayString d string)
  | .printInt num base => printInt d num base
  | .printf fmt args => printf d fmt args
  | .tick tick freq => timeGraphic d tick freq

/-- The conversions of a format have their arguments. -/
inductive Matched : List Byte → List Arg → Prop
  | nil {args : List Arg} : Matched [] args
  | plain {carac : Byte} {rh : List Byte} {args : List Arg} (hne : carac ≠ 0x25)
      (rest : Matched rh args) : Matched (carac :: rh) args
  | word {conversion : Byte} {rh : List Byte} {value : BitVec 32} {args : List Arg}
      (hword : conversion = 0x63 ∨ conversion = 0x64 ∨ conversion = 0x78)
      (rest : Matched rh args) : Matched (0x25 :: conversion :: rh) (.word value :: args)
  | string {rh : List Byte} {value : Text} {args : List Arg} (hne : value.chars ≠ [])
      (hplain : 0x25 ∉ value.chars) (rest : Matched rh args) :
      Matched (0x25 :: 0x73 :: rh) (.string value :: args)
  | unknown {conversion : Byte} {rh : List Byte} {args : List Arg}
      (hother : conversion ≠ 0x63 ∧ conversion ≠ 0x73 ∧ conversion ≠ 0x64 ∧ conversion ≠ 0x78)
      (rest : Matched rh args) : Matched (0x25 :: conversion :: rh) args

/-- The digits of the number fit the buffer of print_int, with its terminator. -/
def DigitsFit (num base : BitVec 32) : Prop :=
  num = 0 ∨ num.toInt.natAbs < base.toInt.natAbs ^ 10

/-- What the driver expects of its callers. -/
def Call.WellFormed : Call → Prop
  | .displayCarac _ => True
  | .displayString _ => True
  | .printInt num base => DigitsFit num base
  | .printf fmt args => fmt.chars ≠ [] ∧ Matched fmt.chars args
  | .tick _ freq => freq ≠ 0

/-- The cursor is before the last cell, and only cells of the screen were written. -/
structure OnScreen (d : Display) : Prop where
  cursor_lt : (getCursorPos d).1.toNat < SCREEN_SIZE - 1
  written_lt : ∀ i ∈ d.written, i < SCREEN_SIZE

section Bounds

variable {d d' : Display}

theorem OnScreen.painted (h : OnScreen d) (hpainted : Painted d d')
    (hcursor : (console d').cursor < SCREEN_SIZE - 1) : OnScreen d' := by
  refine ⟨hcursor, fun i hi => ?_⟩
  rcases hpainted.written i hi with hi | hi
  · exact h.written_lt i hi
  · exact hi

theorem OnScreen.displayCarac (h : OnScreen d) (carac : Byte) :
    OnScreen (displayCarac d carac) :=
  h.painted (painted_displayCarac h.cursor_lt) (displayCarac_cursor_lt h.cursor_lt)

theorem OnScreen.printfCarac (h : OnScreen d) (carac : Byte) : OnScreen (printfCarac d carac) :=
  h.painted (painted_printfCarac h.cursor_lt) (printfCarac_cursor_lt h.cursor_lt)

theorem OnScreen.foldl_displayCarac (h : OnScreen d) (text : List Byte) :
    OnScreen (text.foldl Screen.displayCarac d) := by
  induction text generalizing d with
  | nil => exact h
  | cons carac rest ih => exact ih (h.displayCarac carac)

theorem OnScreen.printInt {num base : BitVec 32} (h : OnScreen d)
    (hok : printInt d num base = .ok d') : OnScreen d' := by
  obtain ⟨ret, -, hret⟩ := bind_eq_ok hok
  cases hret
  exact h.foldl_displayCarac _

/-- What a '%s' does with its string stays on the screen. -/
def Keeps (printString : Display → Text → Except Fault Display) : Prop :=
  ∀ d s d', OnScreen d → printString d s = .ok d' → OnScreen d'

variable {printString : Display → Text → Except Fault Display}

theorem OnScreen.convert {conversion : Byte} {args : List Arg} {r : Display × List Arg}
    (h : OnScreen d) (hkeeps : Keeps printString)
    (hok : convert printString d conversion args = .ok r) : OnScreen r.1 := by
  unfold Screen.convert at hok
  split at hok
  · split at hok
    · cases hok
      exact h.displayCarac _
    · cases hok
  · split at hok
    · split at hok
      · obtain ⟨d', hstring, hr⟩ := bind_eq_ok hok
        cases hr
        exact hkeeps _ _ _ h hstring
      · cases hok
    · split at hok
      · split at hok
        · obtain ⟨d', hint, hr⟩ := bind_eq_ok hok
          cases hr
          exact h.printInt hint
        · cases hok
      · split at hok
        · split at hok
          · obtain ⟨d', hint, hr⟩ := bind_eq_ok hok
            cases hr
            exact h.printInt hint
          · cases hok
        · cases hok
          exact h

theorem OnScreen.printfLoop {rh : List Byte} {args : List Arg} (hkeeps : Keeps printString)
    (h : OnScreen d) (hok : printfLoop printString d rh args = .ok d') : OnScreen d' := by
  induction d, rh, args using printfLoop.induct with
  | case1 d args =>
    cases hok
    exact h
  | case2 d args =>
    rw [Screen.printfLoop, if_pos rfl] at hok
    cases hok
  | case3 d carac args hne =>
    rw [Screen.printfLoop, if_neg hne] at hok
    cases hok
    exact h.printfCarac carac
  | case4 d conversion rh args ih =>
    rw [printfLoop_conversion] at hok
    obtain ⟨r, hconvert, hrest⟩ := bind_eq_ok hok
    exact ih r.1 r.2 (h.convert hkeeps hconvert) hrest
  | case5 d carac conversion rh args hne ih =>
    rw [printfLoop_of_ne hne] at hok
    exact ih (h.printfCarac carac) hok

theorem keeps_printfString : Keeps printfString := by
  intro d s d' h hok
  unfold printfString at hok
  split at hok
  · cases hok
  · exact h.printfLoop (fun _ _ _ _ h => by cases h) hok

theorem OnScreen.printf {fmt : Text} {args : List Arg} (h : OnScreen d)
    (hok : printf d fmt args = .ok d') : OnScreen d' := by
  unfold Screen.printf at hok
  split at hok
  · cases hok
  · exact h.printfLoop keeps_printfString hok

theorem OnScreen.timeGraphic {tick freq : BitVec 32} (h : OnScreen d)
    (hok : timeGraphic d tick freq = .ok d') : OnScreen d' := by
  have hstore : ∀ state cell, OnScreen (store { d with state := state } 78 cell) := by
    intro state cell
    have hpainted : Painted { d with state := state } (store { d with state := state } 78 cell) :=
      painted_store (by decide) cell
    have htick : OnScreen { d with state := state } := ⟨h.cursor_lt, h.written_lt⟩
    exact htick.painted hpainted h.cursor_lt
  unfold Screen.timeGraphic at hok
  split at hok
  · cases hok
  · split at hok
    · dsimp only at hok
      split at hok
      · cases hok
        exact hstore _ _
      · split at hok
        · cases hok
          exact hstore _ _
        · cases hok
          exact ⟨h.cursor_lt, h.written_lt⟩
    · cases hok
      exact h

theorem onScreen_step {call : Call} (h : OnScreen d) (hok : step d call = .ok d') :
    OnScreen d' := by
  cases call with
  | displayCarac carac =>
    cases hok
    exact h.displayCarac carac
  | displayString string =>
    cases hok
    exact h.foldl_displayCarac string.chars
  | printInt num base => exact h.printInt hok
  | printf fmt args => exact h.printf hok
  | tick tick freq => exact h.timeGraphic hok

end Bounds

section Returns

variable {d : Display}

theorem digitsLoop_returns {base num : ℤ} {room : ℕ} (h : num.natAbs < base.natAbs ^ room) :
    ∃ ret, digitsLoop base (room + 1) num = .ok ret := by
  induction room generalizing num with
  | zero =>
    have hzero : num = 0 := by
      rw [pow_zero] at h
      omega
    exact ⟨[], by rw [digitsLoop, if_pos hzero]⟩
  | succ room ih =>
    rw [digitsLoop]
    by_cases hzero : num = 0
    · exact ⟨[], if_pos hzero⟩
    · have hbase : base ≠ 0 := by
        rintro rfl
        rw [Int.natAbs_zero, pow_succ, Nat.mul_zero] at h
        exact Nat.not_lt_zero _ h
      have hdiv : (num.tdiv base).natAbs < base.natAbs ^ room := by
        rw [Int.natAbs_tdiv]
        exact Nat.div_lt_of_lt_mul (by rw [mul_comm, ← pow_succ]; exact h)
      obtain ⟨ret, hret⟩ := ih hdiv
      rw [if_neg hzero, if_neg hbase, hret, ok_bind]
      exact ⟨_, rfl⟩

theorem printInt_returns {num base : BitVec 32} (h : DigitsFit num base) :
    ∃ d', printInt d num base = .ok d' := by
  have hdigits : ∃ ret, intDigits num base = .ok ret := by
    unfold intDigits
    split
    · exact ⟨_, rfl⟩
    · rename_i hne
      exact digitsLoop_returns (h.resolve_left hne)
  obtain ⟨ret, hret⟩ := hdigits
  rw [printInt, hret, ok_bind]
  exact ⟨_, rfl⟩

/-- Any number fits in a base from ten on. -/
theorem digitsFit_of_le (num : BitVec 32) {base : BitVec 32} (h : 10 ≤ base.toInt.natAbs) :
    DigitsFit num base := by
  right
  have hlow := BitVec.le_toInt num
  have hhigh := BitVec.toInt_lt (x := num)
  have hpow : 10 ^ 10 ≤ base.toInt.natAbs ^ 10 := Nat.pow_le_pow_left h 10
  omega

theorem printfString_returns {string : Text} (hne : string.chars ≠ [])
    (hplain : 0x25 ∉ string.chars) : ∃ d', printfString d string = .ok d' := by
  rw [printfString, if_neg hne, printfLoop_plain hplain]
  exact ⟨_, rfl⟩

theorem printfLoop_returns {rh : List Byte} {args : List Arg} (h : Matched rh args) :
    ∃ d', printfLoop printfString d rh args = .ok d' := by
  induction h generalizing d with
  | nil => exact ⟨d, rfl⟩
  | plain hne rest ih =>
    rw [printfLoop_of_ne hne]
    exact ih
  | @word conversion rh value args hword rest ih =>
    have hconvert : ∃ d', convert printfString d conversion (.word value :: args) =
        .ok (d', args) := by
      rcases hword with rfl | rfl | rfl
      · exact ⟨displayCarac d (value.setWidth 8), rfl⟩
      · have hbase : 10 ≤ (10 : BitVec 32).toInt.natAbs := by decide
        obtain ⟨d', hint⟩ := printInt_returns (d := d) (digitsFit_of_le value hbase)
        exact ⟨d', bind_of_ok hint _⟩
      · have hbase : 10 ≤ (16 : BitVec 32).toInt.natAbs := by decide
        obtain ⟨d', hint⟩ := printInt_returns (d := d) (digitsFit_of_le value hbase)
        exact ⟨d', bind_of_ok hint _⟩
    obtain ⟨d', hconvert⟩ := hconvert
    rw [printfLoop_conversion, hconvert, ok_bind]
    exact ih
  | @string rh value args hne hplain rest ih =>
    obtain ⟨d', hstring⟩ := printfString_returns (d := d) hne hplain
    have hconvert : convert printfString d 0x73 (.string value :: args) = .ok (d', args) :=
      bind_of_ok hstring _
    rw [printfLoop_conversion, hconvert, ok_bind]
    exact ih
  | @unknown conversion rh args hother rest ih =>
    have hconvert : convert printfString d conversion args = .ok (d, args) := by
      unfold convert
      rw [if_neg hother.1, if_neg hother.2.1, if_neg hother.2.2.1, if_neg hother.2.2.2]
    rw [printfLoop_conversion, hconvert, ok_bind]
    exact ih

theorem step_returns {call : Call} (h : call.WellFormed) : ∃ d', step d call = .ok d' := by
  cases call with
  | displayCarac carac => exact ⟨_, rfl⟩
  | displayString string => exact ⟨_, rfl⟩
  | printInt num base => exact printInt_returns h
  | printf fmt args =>
    rw [step, printf, if_neg h.1]
    exact printfLoop_returns h.2
  | tick tick freq =>
    rw [step, timeGraphic, if_neg h]
    split
    · dsimp only
      split
      · exact ⟨_, rfl⟩
      · split
        · exact ⟨_, rfl⟩
        · exact ⟨_, rfl⟩
    · exact ⟨_, rfl⟩

end Returns

section Initially

variable {d : Display}

theorem painted_cleanScreen : Painted d (cleanScreen d) :=
  .foldl fun _ _ hi => painted_store (List.mem_range.mp hi) _

theorem painted_initCursor : Painted d (initCursor d) := .of_eq rfl rfl

theorem painted_initScreen : Painted d (initScreen d) := by
  rw [initScreen]
  exact (painted_cleanScreen.trans painted_initCursor).trans painted_changeCursorPos

theorem onScreen_initScreen (h : d.written = []) : OnScreen (initScreen d) := by
  refine ⟨?_, fun i hi => ?_⟩
  · change (console (initScreen d)).cursor < SCREEN_SIZE - 1
    rw [initScreen_cursor]
    decide
  · rcases painted_initScreen.written i hi with hi | hi
    · rw [h] at hi
      cases hi
    · exact hi

end Initially

/-- From init_screen on the cursor is before the last cell after every call that returns,
and no cell beyond the screen is written; when the driver is called as it expects, every
call returns. Change_cursor_pos calls itself at most once. -/
theorem display_onScreen (d : Display) (calls : List Call) :
    Throughout step OnScreen (initScreen { d with written := [] }) calls ∧
      ((∀ call ∈ calls, call.WellFormed) →
        Always step OnScreen (initScreen { d with written := [] }) calls) ∧
      ∀ d pos, (changeCursorPos d pos).2 ≤ 1 := by
  have hinit : OnScreen (initScreen { d with written := [] }) := onScreen_initScreen rfl
  refine ⟨?_, fun hcalls => ?_, changeCursorPos_selfCalls⟩
  · exact throughout_of_invariant (fun _ h => h) (fun _ _ _ h hok => onScreen_step h hok) hinit
      calls
  · refine always_of_invariant (fun _ h => h) (fun d call hcall h => ?_) hinit
    obtain ⟨d', hok⟩ := step_returns (d := d) (hcalls call hcall)
    exact ⟨d', hok, onScreen_step h hok⟩

/-- A number printed between two ticks. -/
theorem display_onScreen_number :
    Always step OnScreen (initScreen { unset with written := [] })
      [.tick 100 100, .printInt 0xFFFFFFFF 10, .tick 200 100] :=
  (display_onScreen unset [.tick 100 100, .printInt 0xFFFFFFFF 10, .tick 200 100]).2.1 (by
    intro call hcall
    simp only [List.mem_cons, List.not_mem_nil, or_false] at hcall
    rcases hcall with rfl | rfl | rfl
    · exact (by decide : (100 : BitVec 32) ≠ 0)
    · exact digitsFit_of_le _ (by decide)
    · exact (by decide : (100 : BitVec 32) ≠ 0))

end RathalOS.ScreenRuns
