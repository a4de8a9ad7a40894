import RathalOS.Screen

/-!
The layout of displayed text, kernel/display/display.c. Text that ends before the last
cell of the screen is laid out line by line. From there on it is not: the last cell is
never written, and every scroll carries it up as a hole at the end of the line above.
-/
namespace RathalOS.Layouts

open ByteMemory Consoles Screen

/-- A character that is displayed as a letter, a digit, a sign or a space. -/
def Printable (carac : Byte) : Prop := 0x20 ≤ carac.toNat ∧ carac.toNat < 0x7F

/-- The character that a cell of the screen shows, 0 for none. -/
def shown (d : Display) (row column : ℕ) : Byte :=
  (d.screen (row * LINE_SIZE + column)).setWidth 8

/-- How many lines a text has left the screen with. -/
def scrolledLines (n : ℕ) : ℕ := n / LINE_SIZE - (COLUMN_SIZE - 1)

/-- The screen shows the text line by line, the lines that do not fit scrolled off, and the
cursor follows it. -/
structure LaidOut (text : List Byte) (d : Display) : Prop where
  cells : ∀ row column, row < COLUMN_SIZE → column < LINE_SIZE →
    shown d row column =
      text.getD (LINE_SIZE * (row + scrolledLines text.length) + column) 0
  cursor : (getCursorPos d).1.toNat = text.length - LINE_SIZE * scrolledLines text.length

section Cells

variable {d : Display} {text : List Byte}

theorem cell_shows (color carac : Byte) : (cell color carac).setWidth 8 = carac := by
  unfold cell
  ext i hi
  simp

theorem cleanScreen_screen (i : ℕ) (hi : i < SCREEN_SIZE) : (cleanScreen d).screen i = 0x0C00 := by
  have hfill : (cleanScreen d).screen = fun i =>
      if 0 ≤ i ∧ i < 0 + SCREEN_SIZE then 0x0C00 else d.screen i :=
    (foldl_fill SCREEN_SIZE fun d' _ x _ => by rw [Nat.zero_add]).2
  rw [hfill]
  exact if_pos ⟨Nat.zero_le i, by rw [Nat.zero_add]; exact hi⟩

theorem initScreen_eq : initScreen d = moveCursor (initCursor (cleanScreen d)) 0 := by
  have hlow : (0 : BitVec 16).toNat < SCREEN_SIZE - 1 := by decide
  rw [initScreen, changeCursorPos_of_lt hlow]

theorem initScreen_screen (i : ℕ) (hi : i < SCREEN_SIZE) : (initScreen d).screen i = 0x0C00 := by
  rw [initScreen_eq, moveCursor_screen, initCursor_screen]
  exact cleanScreen_screen i hi

theorem initScreen_cursor : (console (initScreen d)).cursor = 0 := by
  rw [initScreen_eq, console, getCursorPos_moveCursor]
  rfl

theorem newline_notMem (h : ∀ carac ∈ text, Printable carac) : 0xA ∉ text := by
  intro hmem
  exact absurd (h 0xA hmem).1 (by decide)

/-- A printable text on a clean screen. -/
theorem console_printable (h : ∀ carac ∈ text, Printable carac) :
    console (text.foldl displayCarac (initScreen d)) =
      (text.map (cell (initScreen d).currentColor)).foldl
        (put geometry (cell (initScreen d).currentColor 0)) (console (initScreen d)) := by
  refine console_foldl_displayCarac (newline_notMem h) ?_
  rw [initScreen_cursor]
  decide

/-- A text that ends before the last cell. -/
theorem laidOut_of_lt (h : ∀ carac ∈ text, Printable carac)
    (hfits : text.length < SCREEN_SIZE - 1) :
    LaidOut text (text.foldl displayCarac (initScreen d)) := by
  have hcursor : (console (initScreen d)).cursor = 0 := initScreen_cursor
  have hnone : scrolledLines text.length = 0 := by
    change text.length / 80 - 24 = 0
    change text.length < 1999 at hfits
    omega
  have hroom : (console (initScreen d)).cursor +
      (text.map (cell (initScreen d).currentColor)).length < geometry.limit := by
    rw [hcursor, List.length_map, Nat.zero_add]
    exact hfits
  obtain ⟨hend, hcells⟩ := foldl_put_of_fits (cell (initScreen d).currentColor 0) hroom
  rw [← console_printable h] at hend hcells
  refine ⟨fun row column hrow hcolumn => ?_, ?_⟩
  · have hi : row * LINE_SIZE + column < SCREEN_SIZE := by
      change row < 25 at hrow
      change column < 80 at hcolumn
      change row * 80 + column < 2000
      omega
    have hblank : (console (initScreen d)).cells (row * LINE_SIZE + column) = 0x0C00 :=
      initScreen_screen _ hi
    have hcell := hcells (row * LINE_SIZE + column)
    rw [hcursor, if_pos (Nat.zero_le _), Nat.sub_zero, hblank] at hcell
    rw [hnone, Nat.add_zero, Nat.mul_comm LINE_SIZE row, shown]
    change ((console (text.foldl displayCarac (initScreen d))).cells _).setWidth 8 = _
    rw [hcell, List.getD_eq_getElem?_getD, List.getD_eq_getElem?_getD, List.getElem?_map]
    cases text[row * LINE_SIZE + column]? with
    | none => rw [Option.map_none, Option.getD_none, Option.getD_none]; rfl
    | some carac => exact cell_shows _ carac
  · rw [hnone, Nat.mul_zero, Nat.sub_zero]
    rw [hcursor, Nat.zero_add, List.length_map] at hend
    exact hend

/-- A text that reaches the last cell shows nothing at the end of the last line but one. -/
theorem not_laidOut_of_le (h : ∀ carac ∈ text, Printable carac)
    (hlong : SCREEN_SIZE - 1 ≤ text.length) :
    ¬ LaidOut text (text.foldl displayCarac (initScreen d)) := by
  intro hlaid
  have hcursor : (console (initScreen d)).cursor = 0 := initScreen_cursor
  have hblank : ∀ i, geometry.limit ≤ i → i < geometry.size →
      ((console (initScreen d)).cells i).setWidth 8 = 0#8 := by
    intro i _ hi
    have hcell : (console (initScreen d)).cells i = 0x0C00 := initScreen_screen i hi
    rw [hcell]
    rfl
  have hreach : geometry.limit ≤ (console (initScreen d)).cursor +
      (text.map (cell (initScreen d).currentColor)).length := by
    rw [hcursor, List.length_map, Nat.zero_add]
    exact hlong
  have hcorner : Cornered geometry (fun v => v.setWidth 8 = 0#8)
      (console (text.foldl displayCarac (initScreen d))) := by
    have hlow : (console (initScreen d)).cursor < geometry.limit := by
      rw [hcursor]
      decide
    rw [console_printable h]
    exact cornered_foldl_put (B := fun v => v.setWidth 8 = 0#8) (cell_shows _ 0) hlow hblank
      hreach
  have hhole : shown (text.foldl displayCarac (initScreen d)) 23 79 = 0 :=
    hcorner.above 1999 le_rfl (by decide)
  have hinside : LINE_SIZE * (23 + scrolledLines text.length) + 79 < text.length := by
    change 80 * (23 + (text.length / 80 - 24)) + 79 < text.length
    change 1999 ≤ text.length at hlong
    omega
  have hshown := hlaid.cells 23 79 (by decide) (by decide)
  rw [hhole, List.getD_eq_getElem?_getD, List.getElem?_eq_getElem hinside,
    Option.getD_some] at hshown
  have hprintable := h _ (List.getElem_mem hinside)
  rw [← hshown] at hprintable
  exact absurd hprintable.1 (by decide)

end Cells

/-- Displayed on a clean screen, a text is laid out exactly if it ends before the last
cell. -/
theorem laidOut_iff (d : Display) (string : Text)
    (h : ∀ carac ∈ string.chars, Printable carac) :
    LaidOut string.chars (displayString (initScreen d) string) ↔
      string.chars.length < SCREEN_SIZE - 1 := by
  constructor
  · intro hlaid
    by_contra hlong
    exact not_laidOut_of_le h (Nat.le_of_not_lt hlong) hlaid
  · intro hfits
    exact laidOut_of_lt h hfits

/-- A display before init_screen. -/
def unset : Display where
  screen := fun _ => 0
  written := []
  command := 0
  registers := fun _ => 0
  currentColor := BASE_COLOR
  state := 1

/-- A text of the letter a. -/
def letters (n : ℕ) : Text where
  chars := List.replicate n 0x61
  zero_notMem := by
    intro h
    exact absurd (List.eq_of_mem_replicate h) (by decide)

theorem letters_printable (n : ℕ) : ∀ carac ∈ (letters n).chars, Printable carac := by
  intro carac hmem
  rw [List.eq_of_mem_replicate hmem]
  exact ⟨by decide, by decide⟩

theorem laidOut_iff_letters :
    LaidOut (letters 3).chars (displayString (initScreen unset) (letters 3)) ↔
      (letters 3).chars.length < SCREEN_SIZE - 1 :=
  laidOut_iff unset (letters 3) (letters_printable 3)

theorem laidOut_letters_full :
    ¬ LaidOut (letters 2000).chars (displayString (initScreen unset) (letters 2000)) := by
  refine not_laidOut_of_le (letters_printable 2000) ?_
  rw [letters, List.length_replicate]
  decide

end RathalOS.Layouts
