import RathalOS.ByteMemory
import RathalOS.Consoles
import Mathlib.Data.List.Range

/-!
The screen, kernel/display/display.c. Characters are put under the cursor, which the two
registers of the display hold. A cursor sent to the last cell of the screen or further
scrolls the screen: the last cell is never written.
-/
namespace RathalOS.Screen

open ByteMemory Consoles

abbrev COLUMN_SIZE : ℕ := 25
abbrev LINE_SIZE : ℕ := 80
abbrev SCREEN_SIZE : ℕ := 80 * 25
def BASE_COLOR : Byte := 0x0C

/-- CURSOR_COMMAND_REGISTER and CURSOR_DATA_REGISTER. -/
inductive Port
  | cursorCommand
  | cursorData

/-- The video memory from SCREEN_REGISTER on, the command written last and the registers it
selects from, and the variables of the driver. The cells written so far are recorded in
written, which no function reads. -/
structure Display where
  screen : ℕ → BitVec 16
  written : List ℕ
  command : Byte
  registers : Byte → Byte
  currentColor : Byte
  state : ℤ

/-- A C string, by the characters before its terminator. -/
structure Text where
  chars : List Byte
  zero_notMem : 0 ∉ chars

def outb (d : Display) (port : Port) (data : Byte) : Display :=
  match port with
  | .cursorCommand => { d with command := data }
  | .cursorData => { d with registers := Function.update d.registers d.command data }

/-- Registers return what was written to them last. -/
def inb (d : Display) (port : Port) : Byte :=
  match port with
  | .cursorCommand => d.command
  | .cursorData => d.registers d.command

/-- A store to video memory. -/
def store (d : Display) (index : ℕ) (cell : BitVec 16) : Display :=
  { d with
    screen := Function.update d.screen index cell
    written := index :: d.written }

/-- A character and its colour as they are kept in video memory. -/
def cell (color carac : Byte) : BitVec 16 := color.setWidth 16 <<< 8 ||| carac.setWidth 16

def displayCaracAtPos (d : Display) (pos : BitVec 16) (carac : Byte) : Display :=
  store d pos.toNat (cell d.currentColor carac)

def getCursorPos (d : Display) : BitVec 16 × Display :=
  let d := outb d .cursorCommand 0xE
  let pos := (inb d .cursorData).setWidth 16 <<< 8
  let d := outb d .cursorCommand 0xF
  (pos ||| (inb d .cursorData).setWidth 16, d)

/-- The branch of change_cursor_pos for a position on the screen. -/
def moveCursor (d : Display) (pos : BitVec 16) : Display :=
  let d := outb d .cursorCommand 0xE
  let d := outb d .cursorData ((pos >>> 8).setWidth 8)
  let d := outb d .cursorCommand 0xF
  outb d .cursorData (pos.setWidth 8)

/-- The inner loop, which copies a line into the line above. -/
def copyLine (d : Display) (y : ℕ) : Display :=
  (List.range LINE_SIZE).foldl (fun d x =>
    store d ((y - 1) * LINE_SIZE + x) (d.screen (y * LINE_SIZE + x))) d

def copyLines (d : Display) : Display := (List.range' 1 (COLUMN_SIZE - 1)).foldl copyLine d

def clearLastLine (d : Display) : Display :=
  (List.range LINE_SIZE).foldl (fun d x =>
    displayCaracAtPos d (BitVec.ofNat 16 (SCREEN_SIZE - LINE_SIZE + x)) 0x00) d

/-- `change_cursor_pos`, with the number of times it called itself. -/
def changeCursorPos (d : Display) (pos : BitVec 16) : Display × ℕ :=
  if pos.toNat < SCREEN_SIZE - 1 then (moveCursor d pos, 0)
  else
    let (d, selfCalls) := changeCursorPos (clearLastLine (copyLines d))
      (BitVec.ofNat 16 (SCREEN_SIZE - LINE_SIZE))
    (d, selfCalls + 1)
termination_by if pos.toNat < SCREEN_SIZE - 1 then 0 else 1
decreasing_by
  rename_i hlow
  rw [if_neg hlow]
  decide

/-- `display_carac`. The case of the newline breaks out of the switch before the call of
change_cursor_pos at its end: the position it computes is dropped. -/
def displayCarac (d : Display) (carac : Byte) : Display :=
  let (cursorPos, d) := getCursorPos d
  if carac = 0xA then d
  else (changeCursorPos (displayCaracAtPos d cursorPos carac) (cursorPos + 1)).1

def displayString (d : Display) (string : Text) : Display := string.chars.foldl displayCarac d

def cleanScreen (d : Display) : Display :=
  (List.range SCREEN_SIZE).foldl (fun d i => store d i 0x0C00) d

def initCursor (d : Display) : Display :=
  let d := outb d .cursorCommand 0xA
  let d := outb d .cursorData 0xE
  let d := outb d .cursorCommand 0xB
  outb d .cursorData 0x1F

def initScreen (d : Display) : Display := (changeCursorPos (initCursor (cleanScreen d)) 0).1

def digitChar (digit : ℤ) : Byte :=
  if digit > 9 then BitVec.ofInt 8 (digit - 10 + 0x61) else BitVec.ofInt 8 (digit + 0x30)

/-- The loop over the digits, with the bytes of ret that are left for them and for the
terminator. -/
def digitsLoop (base : ℤ) : ℕ → ℤ → Except Fault (List Byte)
  | 0, _ => .error .undefined
  | room + 1, num =>
    if num = 0 then .ok []
    else if base = 0 then .error .undefined
    else do
      let ret ← digitsLoop base room (num.tdiv base)
      .ok (digitChar (num.tmod base) :: ret)

/-- What print_int has in ret before the terminator. -/
def intDigits (num base : BitVec 32) : Except Fault (List Byte) :=
  if num = 0 then .ok [0x30] else digitsLoop base.toInt 11 num.toInt

/-- `print_int`. The last loop starts at the terminator and displays it too. -/
def printInt (d : Display) (num base : BitVec 32) : Except Fault Display := do
  let ret ← intDigits num base
  .ok ((0x00 :: ret.reverse).foldl displayCarac d)

/-- What printf finds on the stack. -/
inductive Arg
  | word (value : BitVec 32)
  | string (value : Text)

/-- The switch over the character after a '%'. The argument of an unknown conversion is not
skipped, and a conversion without an argument reads whatever the stack holds. -/
def convert (printString : Display → Text → Except Fault Display) (d : Display)
    (conversion : Byte) (args : List Arg) : Except Fault (Display × List Arg) :=
  if conversion = 0x63 then
    match args with
    | .word value :: args => .ok (displayCarac d (value.setWidth 8), args)
    | _ => .error .undefined
  else if conversion = 0x73 then
    match args with
    | .string value :: args => do
      let d ← printString d value
      .ok (d, args)
    | _ => .error .undefined
  else if conversion = 0x64 then
    match args with
    | .word value :: args => do
      let d ← printInt d value 10
      .ok (d, args)
    | _ => .error .undefined
  else if conversion = 0x78 then
    match args with
    | .word value :: args => do
      let d ← printInt d value 16
      .ok (d, args)
    | _ => .error .undefined
  else .ok (d, args)

/-- A character of the format that is not part of a conversion. -/
def printfCarac (d : Display) (carac : Byte) : Display :=
  if carac = 0x0A then
    let (newpos, d) := getCursorPos d
    (changeCursorPos d (newpos + (80 - newpos % 80))).1
  else displayCarac d carac

/-- The loop over the rest of the format. A '%' at its end makes the loop step over the
terminator. -/
def printfLoop (printString : Display → Text → Except Fault Display) (d : Display) :
    List Byte → List Arg → Except Fault Display
  | [], _ => .ok d
  | [carac], _ => if carac = 0x25 then .error .undefined else .ok (printfCarac d carac)
  | carac :: conversion :: rh, args =>
    if carac = 0x25 then do
      let (d, args) ← convert printString d conversion args
      printfLoop printString d rh args
    else printfLoop printString (printfCarac d carac) (conversion :: rh) args

/-- `printf` as it calls itself for a '%s'. The string is the format, and what follows it on
the stack are no arguments. -/
def printfString (d : Display) (fmt : Text) : Except Fault Display :=
  if fmt.chars = [] then .error .undefined
  else printfLoop (fun _ _ => .error .undefined) d fmt.chars []

/-- `printf`. The loop looks at a character before it looks for the terminator. -/
def printf (d : Display) (fmt : Text) (args : List Arg) : Except Fault Display :=
  if fmt.chars = [] then .error .undefined else printfLoop printfString d fmt.chars args

def graphicState1 (d : Display) : Display := store d 78 0x0C09

def graphicState2 (d : Display) : Display := store d 78 0x0C07

def timeGraphic (d : Display) (tick freq : BitVec 32) : Except Fault Display :=
  if freq = 0 then .error .undefined
  else if tick % freq = 0 then
    let d := { d with state := 1 - d.state }
    if d.state = 0 then .ok (graphicState1 d)
    else if d.state = 1 then .ok (graphicState2 d)
    else .ok d
  else .ok d

/-- The screen with the cursor positions that change_cursor_pos keeps. -/
def geometry : Geometry where
  width := LINE_SIZE
  rows := COLUMN_SIZE
  limit := SCREEN_SIZE - 1
  two_le_width := by decide
  two_le_rows := by decide
  lastRow_lt := by decide
  limit_le := by decide

/-- The display as a console. -/
def console (d : Display) : Console (BitVec 16) :=
  { cells := d.screen
    cursor := (getCursorPos d).1.toNat }

/-- What drawing leaves as it is: the colour, and the record of the cells that were
written, to which only cells of the screen are added. -/
structure Painted (d d' : Display) : Prop where
  currentColor : d'.currentColor = d.currentColor
  written : ∀ i ∈ d'.written, i ∈ d.written ∨ i < SCREEN_SIZE

section Painting

variable {d d' d'' : Display}

theorem Painted.of_eq (hcolor : d'.currentColor = d.currentColor)
    (hwritten : d'.written = d.written) : Painted d d' :=
  ⟨hcolor, fun _ hi => .inl (hwritten ▸ hi)⟩

theorem Painted.refl (d : Display) : Painted d d := .of_eq rfl rfl

theorem Painted.trans (h : Painted d d') (h' : Painted d' d'') : Painted d d'' := by
  refine ⟨h'.currentColor.trans h.currentColor, fun i hi => ?_⟩
  rcases h'.written i hi with hi | hi
  · exact h.written i hi
  · exact .inr hi

theorem painted_store {index : ℕ} (h : index < SCREEN_SIZE) (cell : BitVec 16) :
    Painted d (store d index cell) := by
  refine ⟨rfl, fun i hi => ?_⟩
  rcases List.mem_cons.mp hi with hi | hi
  · exact .inr (hi ▸ h)
  · exact .inl hi

theorem Painted.foldl {β : Type} {f : Display → β → Display} {l : List β}
    (h : ∀ d, ∀ x ∈ l, Painted d (f d x)) : Painted d (l.foldl f d) := by
  induction l generalizing d with
  | nil => exact .refl d
  | cons x l ih =>
    exact (h d x List.mem_cons_self).trans (ih fun d y hy => h d y (List.mem_cons_of_mem x hy))

theorem painted_getCursorPos : Painted d (getCursorPos d).2 := .of_eq rfl rfl

theorem painted_moveCursor (pos : BitVec 16) : Painted d (moveCursor d pos) := .of_eq rfl rfl

theorem painted_copyLines : Painted d (copyLines d) := by
  refine .foldl fun d y hy => .foldl fun d x hx => painted_store ?_ _
  have hrow := List.mem_range'_1.mp hy
  have hcolumn := List.mem_range.mp hx
  have hlines : COLUMN_SIZE = 25 := rfl
  have hline : LINE_SIZE = 80 := rfl
  change (y - 1) * 80 + x < 2000
  omega

theorem displayCaracAtPos_lastLine {x : ℕ} (hx : x < LINE_SIZE) (carac : Byte) :
    displayCaracAtPos d (BitVec.ofNat 16 (SCREEN_SIZE - LINE_SIZE + x)) carac =
      store d (SCREEN_SIZE - LINE_SIZE + x) (cell d.currentColor carac) := by
  have hline : LINE_SIZE = 80 := rfl
  have hscreen : SCREEN_SIZE = 2000 := rfl
  rw [displayCaracAtPos, BitVec.toNat_ofNat, Nat.mod_eq_of_lt (by omega)]

theorem painted_clearLastLine : Painted d (clearLastLine d) := by
  refine .foldl fun d x hx => ?_
  have hcolumn := List.mem_range.mp hx
  have hline : LINE_SIZE = 80 := rfl
  have hscreen : SCREEN_SIZE = 2000 := rfl
  rw [displayCaracAtPos_lastLine hcolumn]
  exact painted_store (by omega) _

end Painting

section Cursor

variable {d : Display} {pos : BitVec 16}

theorem word_of_bytes (pos : BitVec 16) :
    ((pos >>> 8).setWidth 8).setWidth 16 <<< 8 ||| (pos.setWidth 8).setWidth 16 = pos := by
  ext i hi
  simp
  grind

@[simp] theorem getCursorPos_moveCursor : (getCursorPos (moveCursor d pos)).1 = pos :=
  word_of_bytes pos

@[simp] theorem moveCursor_screen : (moveCursor d pos).screen = d.screen := rfl

@[simp] theorem initCursor_screen : (initCursor d).screen = d.screen := rfl

theorem changeCursorPos_of_lt (h : pos.toNat < SCREEN_SIZE - 1) :
    changeCursorPos d pos = (moveCursor d pos, 0) := by
  rw [changeCursorPos, if_pos h]

theorem changeCursorPos_of_le (h : SCREEN_SIZE - 1 ≤ pos.toNat) :
    changeCursorPos d pos = (moveCursor (clearLastLine (copyLines d))
      (BitVec.ofNat 16 (SCREEN_SIZE - LINE_SIZE)), 1) := by
  rw [changeCursorPos, if_neg (Nat.not_lt.mpr h), changeCursorPos_of_lt (by decide)]

/-- One scroll makes room: `change_cursor_pos` calls itself at most once. -/
theorem changeCursorPos_selfCalls (d : Display) (pos : BitVec 16) :
    (changeCursorPos d pos).2 ≤ 1 := by
  rcases Nat.lt_or_ge pos.toNat (SCREEN_SIZE - 1) with hpos | hpos
  · rw [changeCursorPos_of_lt hpos]
    exact Nat.zero_le 1
  · rw [changeCursorPos_of_le hpos]

theorem painted_changeCursorPos : Painted d (changeCursorPos d pos).1 := by
  rcases Nat.lt_or_ge pos.toNat (SCREEN_SIZE - 1) with hpos | hpos
  · rw [changeCursorPos_of_lt hpos]
    exact painted_moveCursor pos
  · rw [changeCursorPos_of_le hpos]
    exact (painted_copyLines.trans painted_clearLastLine).trans (painted_moveCursor _)

theorem copyLine_screen {y : ℕ} (hy : 1 ≤ y) : (copyLine d y).screen = fun i =>
    if (y - 1) * LINE_SIZE ≤ i ∧ i < (y - 1) * LINE_SIZE + LINE_SIZE
      then d.screen (i + LINE_SIZE) else d.screen i := by
  have hstart : y * LINE_SIZE = (y - 1) * LINE_SIZE + LINE_SIZE := by
    rw [← Nat.succ_mul, Nat.succ_eq_add_one, Nat.sub_add_cancel hy]
  rw [← foldl_copy d.screen _ (by decide : 0 < LINE_SIZE), ← hstart]
  exact (List.foldl_hom Display.screen fun _ _ => rfl).symm

theorem copyLines_screen (n : ℕ) : ((List.range' 1 n).foldl copyLine d).screen = fun i =>
    if i < n * LINE_SIZE then d.screen (i + LINE_SIZE) else d.screen i := by
  induction n with
  | zero => rfl
  | succ n ih =>
    rw [List.range'_1_concat, List.foldl_append, List.foldl_cons, List.foldl_nil,
      copyLine_screen (Nat.le_add_right 1 n), ih, Nat.add_sub_cancel_left, Nat.succ_mul]
    funext i
    have hline : 0 < LINE_SIZE := by decide
    dsimp only
    by_cases hdone : i < n * LINE_SIZE
    · rw [if_neg (by omega), if_pos hdone, if_pos (by omega)]
    · by_cases hline : i < n * LINE_SIZE + LINE_SIZE
      · rw [if_pos ⟨Nat.le_of_not_lt hdone, hline⟩, if_neg (by omega), if_pos hline]
      · rw [if_neg (by omega), if_neg hdone, if_neg hline]

/-- A loop that stores the same in cell after cell. -/
theorem foldl_fill {f : Display → ℕ → Display} {start : ℕ} {v : BitVec 16} (n : ℕ)
    (hf : ∀ d', d'.currentColor = d.currentColor → ∀ x < n, f d' x = store d' (start + x) v) :
    ((List.range n).foldl f d).currentColor = d.currentColor ∧
      ((List.range n).foldl f d).screen = fun i =>
        if start ≤ i ∧ i < start + n then v else d.screen i := by
  induction n with
  | zero =>
    refine ⟨rfl, funext fun i => ?_⟩
    rw [if_neg (by omega)]
    rfl
  | succ n ih =>
    obtain ⟨hcolor, hscreen⟩ := ih fun d' hd' x hx => hf d' hd' x (Nat.lt_succ_of_lt hx)
    rw [List.range_succ, List.foldl_append, List.foldl_cons, List.foldl_nil,
      hf _ hcolor n (Nat.lt_succ_self n)]
    refine ⟨hcolor, funext fun i => ?_⟩
    rw [store, hscreen]
    dsimp only
    by_cases hi : i = start + n
    · rw [hi, Function.update_self, if_pos (by omega)]
    · rw [Function.update_of_ne hi]
      by_cases hin : start ≤ i ∧ i < start + n
      · rw [if_pos hin, if_pos (by omega)]
      · rw [if_neg hin, if_neg (by omega)]

theorem clearLastLine_screen : (clearLastLine d).screen = fun i =>
    if SCREEN_SIZE - LINE_SIZE ≤ i ∧ i < SCREEN_SIZE - LINE_SIZE + LINE_SIZE
      then cell d.currentColor 0 else d.screen i :=
  (foldl_fill LINE_SIZE fun d' hd' x hx => by rw [displayCaracAtPos_lastLine hx, hd']).2

/-- What change_cursor_pos makes of the screen is what it is on a console. -/
theorem console_changeCursorPos :
    console (changeCursorPos d pos).1 =
      settle geometry (cell d.currentColor 0) (console d) pos.toNat := by
  rcases Nat.lt_or_ge pos.toNat (SCREEN_SIZE - 1) with hpos | hpos
  · have hlimit : pos.toNat < geometry.limit := hpos
    rw [changeCursorPos_of_lt hpos, console, settle, if_pos hlimit, Geometry.land_of_lt hlimit,
      getCursorPos_moveCursor]
    rfl
  · have hlimit : geometry.limit ≤ pos.toNat := hpos
    have hcells : (moveCursor (clearLastLine (copyLines d))
        (BitVec.ofNat 16 (SCREEN_SIZE - LINE_SIZE))).screen =
          scrolled geometry (cell d.currentColor 0) d.screen := by
      change (clearLastLine (copyLines d)).screen = _
      rw [clearLastLine_screen, painted_copyLines.currentColor, copyLines, copyLines_screen]
      funext i
      have hsize : geometry.size = 2000 := rfl
      have hrow : geometry.lastRow = 1920 := rfl
      have hwidth : geometry.width = 80 := rfl
      have hline : LINE_SIZE = 80 := rfl
      have hlines : COLUMN_SIZE = 25 := rfl
      have hscreen : SCREEN_SIZE = 2000 := rfl
      rw [scrolled, hsize, hrow, hwidth, hline, hlines, hscreen]
      dsimp only
      rcases Nat.lt_or_ge i 1920 with hi | hi
      · rw [if_neg (by omega), if_pos (by omega), if_pos hi]
      · by_cases hlast : i < 2000
        · rw [if_pos (by omega), if_neg (by omega), if_pos hlast]
        · rw [if_neg (by omega), if_neg (by omega), if_neg (by omega), if_neg hlast]
    rw [changeCursorPos_of_le hpos, console, settle, if_neg (Nat.not_lt.mpr hlimit),
      Geometry.land_of_le hlimit, getCursorPos_moveCursor, hcells]
    rfl

/-- Every row holds what was in the row below it, the last row is blank and the cursor is
at its start. -/
structure ScrolledUp (d d' : Display) : Prop where
  rows : ∀ row column, row < COLUMN_SIZE - 1 → column < LINE_SIZE →
    d'.screen (row * LINE_SIZE + column) = d.screen ((row + 1) * LINE_SIZE + column)
  lastRow : ∀ column < LINE_SIZE,
    d'.screen ((COLUMN_SIZE - 1) * LINE_SIZE + column) = cell d.currentColor 0
  cursor : (getCursorPos d').1.toNat = SCREEN_SIZE - LINE_SIZE

theorem changeCursorPos_screen :
    (changeCursorPos d pos).1.screen =
      (settle geometry (cell d.currentColor 0) (console d) pos.toNat).cells :=
  congrArg Console.cells console_changeCursorPos

theorem scrolledUp_changeCursorPos (h : SCREEN_SIZE - 1 ≤ pos.toNat) :
    ScrolledUp d (changeCursorPos d pos).1 := by
  have hlimit : geometry.limit ≤ pos.toNat := h
  have hscreen : (changeCursorPos d pos).1.screen =
      scrolled geometry (cell d.currentColor 0) d.screen := by
    rw [changeCursorPos_screen, settle, if_neg (Nat.not_lt.mpr hlimit)]
    rfl
  have hline : LINE_SIZE = 80 := rfl
  have hlines : COLUMN_SIZE = 25 := rfl
  have hsize : geometry.size = 2000 := rfl
  have hrow : geometry.lastRow = 1920 := rfl
  have hwidth : geometry.width = 80 := rfl
  constructor
  case rows =>
    intro row column hrows hcolumns
    rw [hscreen, scrolled, hrow, hwidth, hline, if_pos (by omega)]
    congr 1
    ring
  case lastRow =>
    intro column hcolumns
    rw [hscreen, scrolled, hrow, hsize, hline, hlines, if_neg (by omega), if_pos (by omega)]
  case cursor =>
    rw [changeCursorPos_of_le h, getCursorPos_moveCursor]
    rfl

/-- A position before the last cell only moves the cursor; from there on the screen
scrolls by one row. -/
theorem changeCursorPos_exact (d : Display) (pos : BitVec 16) :
    (SCREEN_SIZE - 1 ≤ pos.toNat → ScrolledUp d (changeCursorPos d pos).1) ∧
    (pos.toNat < SCREEN_SIZE - 1 →
      (∀ i < SCREEN_SIZE, (changeCursorPos d pos).1.screen i = d.screen i) ∧
        (getCursorPos (changeCursorPos d pos).1).1 = pos) := by
  refine ⟨scrolledUp_changeCursorPos, fun hpos => ?_⟩
  rw [changeCursorPos_of_lt hpos]
  exact ⟨fun _ _ => rfl, getCursorPos_moveCursor⟩

end Cursor

section Characters

variable {d : Display} {carac : Byte}

theorem displayCarac_eq : displayCarac d carac =
    if carac = 0xA then (getCursorPos d).2
    else (changeCursorPos (displayCaracAtPos (getCursorPos d).2 (getCursorPos d).1 carac)
      ((getCursorPos d).1 + 1)).1 := rfl

theorem displayCarac_newline : console (displayCarac d 0xA) = console d := by
  rw [displayCarac_eq, if_pos rfl]
  rfl

theorem displayCarac_of_ne (h : carac ≠ 0xA) (hcursor : (console d).cursor < SCREEN_SIZE - 1) :
    console (displayCarac d carac) =
      put geometry (cell d.currentColor 0) (console d) (cell d.currentColor carac) := by
  have hnext : ((getCursorPos d).1 + 1).toNat = (console d).cursor + 1 := by
    have hscreen : SCREEN_SIZE = 2000 := rfl
    have hlow : (console d).cursor + 1 < 2 ^ 16 := by omega
    rw [BitVec.toNat_add]
    exact Nat.mod_eq_of_lt hlow
  rw [displayCarac_eq, if_neg h, console_changeCursorPos, hnext]
  rfl

theorem painted_displayCarac (hcursor : (console d).cursor < SCREEN_SIZE - 1) :
    Painted d (displayCarac d carac) := by
  rw [displayCarac_eq]
  split
  · exact painted_getCursorPos
  · have hput : Painted (getCursorPos d).2
        (displayCaracAtPos (getCursorPos d).2 (getCursorPos d).1 carac) :=
      painted_store (hcursor.trans (by decide)) _
    exact (painted_getCursorPos.trans hput).trans painted_changeCursorPos

theorem displayCarac_cursor_lt (hcursor : (console d).cursor < SCREEN_SIZE - 1) :
    (console (displayCarac d carac)).cursor < SCREEN_SIZE - 1 := by
  by_cases h : carac = 0xA
  · rw [h, displayCarac_newline]
    exact hcursor
  · rw [displayCarac_of_ne h hcursor, put_cursor]
    exact geometry.advance_lt _

theorem printfCarac_newline (hcursor : (console d).cursor < SCREEN_SIZE - 1) :
    console (printfCarac d 0x0A) = newline geometry (cell d.currentColor 0) (console d) := by
  have hnext : ((getCursorPos d).1 + (80 - (getCursorPos d).1 % 80)).toNat =
      (console d).cursor + (80 - (console d).cursor % 80) := by
    have hscreen : SCREEN_SIZE = 2000 := rfl
    have hmod : ((getCursorPos d).1 % 80).toNat = (console d).cursor % 80 := rfl
    have hlow : (console d).cursor + (80 - (console d).cursor % 80) < 2 ^ 16 := by omega
    have hrest : (80 - (getCursorPos d).1 % 80).toNat = 80 - (console d).cursor % 80 := by
      rw [BitVec.toNat_sub_of_le, hmod]
      · rfl
      · rw [BitVec.le_def, hmod]
        exact (Nat.mod_lt _ (by decide)).le
    rw [BitVec.toNat_add, hrest]
    exact Nat.mod_eq_of_lt hlow
  have hunfold : printfCarac d 0x0A = (changeCursorPos (getCursorPos d).2
      ((getCursorPos d).1 + (80 - (getCursorPos d).1 % 80))).1 := rfl
  rw [hunfold, console_changeCursorPos, hnext]
  rfl

theorem printfCarac_of_ne (h : carac ≠ 0x0A) : printfCarac d carac = displayCarac d carac :=
  if_neg h

theorem painted_printfCarac (hcursor : (console d).cursor < SCREEN_SIZE - 1) :
    Painted d (printfCarac d carac) := by
  rw [printfCarac]
  split
  · exact painted_getCursorPos.trans painted_changeCursorPos
  · exact painted_displayCarac hcursor

theorem printfCarac_cursor_lt (hcursor : (console d).cursor < SCREEN_SIZE - 1) :
    (console (printfCarac d carac)).cursor < SCREEN_SIZE - 1 := by
  by_cases h : carac = 0xA
  · rw [h, printfCarac_newline hcursor, newline_cursor]
    exact geometry.land_lt _
  · rw [printfCarac_of_ne h]
    exact displayCarac_cursor_lt hcursor

theorem printfLoop_of_ne {printString : Display → Text → Except Fault Display}
    {rh : List Byte} {args : List Arg} (h : carac ≠ 0x25) :
    printfLoop printString d (carac :: rh) args =
      printfLoop printString (printfCarac d carac) rh args := by
  cases rh with
  | nil => simp only [printfLoop, if_neg h]
  | cons conversion rh => rw [printfLoop, if_neg h]

theorem printfLoop_conversion {printString : Display → Text → Except Fault Display}
    {conversion : Byte} {rh : List Byte} {args : List Arg} :
    printfLoop printString d (0x25 :: conversion :: rh) args = (do
      let (d, args) ← convert printString d conversion args
      printfLoop printString d rh args) := by
  rw [printfLoop, if_pos rfl]

/-- A string without conversions is displayed to its end. -/
theorem printfLoop_plain {printString : Display → Text → Except Fault Display}
    {args : List Arg} {text : List Byte} (h : 0x25 ∉ text) :
    printfLoop printString d text args = .ok (text.foldl printfCarac d) := by
  induction text generalizing d with
  | nil => rfl
  | cons carac rest ih =>
    obtain ⟨hne, hrest⟩ := not_or.mp (List.mem_cons.not.mp h)
    rw [printfLoop_of_ne (Ne.symm hne), ih hrest, List.foldl_cons]

/-- Text without a newline is laid out by display_string as on a console. -/
theorem console_foldl_displayCarac {text : List Byte} (h : 0xA ∉ text)
    (hcursor : (console d).cursor < SCREEN_SIZE - 1) :
    console (text.foldl displayCarac d) =
      (text.map (cell d.currentColor)).foldl (put geometry (cell d.currentColor 0))
        (console d) := by
  induction text generalizing d with
  | nil => rfl
  | cons carac rest ih =>
    obtain ⟨hne, hrest⟩ := not_or.mp (List.mem_cons.not.mp h)
    rw [List.foldl_cons, ih hrest (displayCarac_cursor_lt hcursor),
      displayCarac_of_ne (Ne.symm hne) hcursor, (painted_displayCarac hcursor).currentColor]
    rfl

end Characters

end RathalOS.Screen
