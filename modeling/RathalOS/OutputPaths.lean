import RathalOS.Layouts

/-!
Two ways to display a string, display_string and printf of kernel/display/display.c. They
treat every character alike but the newline: printf moves the cursor to the next line, and
display_string leaves it where it is.
-/
namespace RathalOS.OutputPaths

open ByteMemory Consoles Screen Layouts

/-- Two displays with the same cells on the screen and the same cursor. -/
structure SameScreen (d d' : Display) : Prop where
  cells : ∀ i < SCREEN_SIZE, d.screen i = d'.screen i
  cursor : (getCursorPos d).1 = (getCursorPos d').1

/-- The two leave the same on every screen. -/
def PathsAgree (string : Text) : Prop :=
  ∀ d, (getCursorPos d).1.toNat < SCREEN_SIZE - 1 →
    ∃ d', printf d string [] = .ok d' ∧ SameScreen d' (displayString d string)

section Loops

variable {d d' : Display} {text : List Byte}

theorem printf_plain {string : Text} (hne : string.chars ≠ []) (h : 0x25 ∉ string.chars) :
    printf d string [] = .ok (string.chars.foldl printfCarac d) := by
  rw [printf, if_neg hne, printfLoop_plain h]

theorem foldl_printfCarac (h : 0xA ∉ text) :
    text.foldl printfCarac d = text.foldl displayCarac d := by
  induction text generalizing d with
  | nil => rfl
  | cons carac rest ih =>
    obtain ⟨hne, hrest⟩ := not_or.mp (List.mem_cons.not.mp h)
    rw [List.foldl_cons, List.foldl_cons, printfCarac_of_ne (Ne.symm hne), ih hrest]

theorem foldl_displayCarac_cursor (hcursor : (console d).cursor < SCREEN_SIZE - 1) :
    (console (text.foldl displayCarac d)).cursor =
      geometry.advance^[text.countP (· ≠ 0xA)] (console d).cursor := by
  induction text generalizing d with
  | nil => rfl
  | cons carac rest ih =>
    rw [List.foldl_cons, ih (displayCarac_cursor_lt hcursor)]
    by_cases h : carac = 0xA
    · rw [List.countP_cons_of_neg (by simpa using h), h, displayCarac_newline]
    · rw [List.countP_cons_of_pos (by simpa using h), Function.iterate_succ_apply,
        displayCarac_of_ne h hcursor, put_cursor]

theorem foldl_printfCarac_cursor_lt (text : List Byte)
    (hcursor : (console d).cursor < SCREEN_SIZE - 1) :
    (console (text.foldl printfCarac d)).cursor < SCREEN_SIZE - 1 := by
  induction text generalizing d with
  | nil => exact hcursor
  | cons carac rest ih => exact ih (printfCarac_cursor_lt hcursor)

/-- What is on the screen has no say in where printf leaves the cursor. -/
theorem foldl_printfCarac_cursor_congr (hcursor : (console d).cursor < SCREEN_SIZE - 1)
    (h : (console d).cursor = (console d').cursor) :
    (console (text.foldl printfCarac d)).cursor =
      (console (text.foldl printfCarac d')).cursor := by
  induction text generalizing d d' with
  | nil => exact h
  | cons carac rest ih =>
    have hcursor' : (console d').cursor < SCREEN_SIZE - 1 := h ▸ hcursor
    refine ih (printfCarac_cursor_lt hcursor) ?_
    by_cases hline : carac = 0xA
    · rw [hline, printfCarac_newline hcursor, printfCarac_newline hcursor', newline_cursor,
        newline_cursor, h]
    · rw [printfCarac_of_ne hline, printfCarac_of_ne hline, displayCarac_of_ne hline hcursor,
        displayCarac_of_ne hline hcursor', put_cursor, put_cursor, h]

/-- After a newline, printf has forgotten in which column the line before it ended. -/
theorem printf_forgets {before : List Byte} (after : List Byte) (hbefore : 0xA ∉ before)
    (hcursor : (console d).cursor < SCREEN_SIZE - 1)
    (hcursor' : (console d').cursor < SCREEN_SIZE - 1)
    (hrow : geometry.advance^[before.length] (console d).cursor / geometry.width =
      geometry.advance^[before.length] (console d').cursor / geometry.width) :
    (console ((before ++ 0xA :: after).foldl printfCarac d)).cursor =
      (console ((before ++ 0xA :: after).foldl printfCarac d')).cursor := by
  have hline : ∀ d, (console d).cursor < SCREEN_SIZE - 1 →
      (console (before.foldl printfCarac d)).cursor =
        geometry.advance^[before.length] (console d).cursor := by
    intro d hcursor
    rw [foldl_printfCarac hbefore, console_foldl_displayCarac hbefore hcursor,
      foldl_put_cursor, List.length_map]
  have hlow := foldl_printfCarac_cursor_lt before hcursor
  have hlow' := foldl_printfCarac_cursor_lt before hcursor'
  rw [List.foldl_append, List.foldl_append, List.foldl_cons, List.foldl_cons]
  refine foldl_printfCarac_cursor_congr (printfCarac_cursor_lt hlow) ?_
  rw [printfCarac_newline hlow, printfCarac_newline hlow', newline_cursor, newline_cursor,
    hline d hcursor, hline d' hcursor']
  exact Geometry.nextRow_congr hrow

/-- A clean screen with the cursor at p. -/
theorem exists_cursor {p : ℕ} (hp : p < SCREEN_SIZE - 1) : ∃ d, (console d).cursor = p := by
  refine ⟨moveCursor unset (BitVec.ofNat 16 p), ?_⟩
  have hscreen : SCREEN_SIZE = 2000 := rfl
  rw [console, getCursorPos_moveCursor, BitVec.toNat_ofNat]
  exact Nat.mod_eq_of_lt (by omega)

/-- From two cursors that a newline brings together printf ends at one place, and
display_string at two. -/
theorem not_pathsAgree {string : Text} (hpercent : 0x25 ∉ string.chars)
    (hnewline : 0xA ∈ string.chars) : ¬ PathsAgree string := by
  intro hagree
  have hne : string.chars ≠ [] := List.ne_nil_of_mem hnewline
  obtain ⟨before, after, hsplit, hbefore⟩ := List.eq_append_cons_of_mem hnewline
  obtain ⟨p, hp, hrow⟩ := geometry.exists_same_row before.length
  obtain ⟨d, hd⟩ := exists_cursor hp
  obtain ⟨d', hd'⟩ := exists_cursor (geometry.advance_lt p)
  have hends : ∀ d, (console d).cursor < SCREEN_SIZE - 1 →
      (console (string.chars.foldl printfCarac d)).cursor =
        geometry.advance^[string.chars.countP (· ≠ 0xA)] (console d).cursor := by
    intro d hcursor
    obtain ⟨e, hok, hsame⟩ := hagree d hcursor
    rw [printf_plain hne hpercent] at hok
    cases hok
    rw [← foldl_displayCarac_cursor hcursor]
    exact congrArg BitVec.toNat hsame.cursor
  have hcursor : (console d).cursor < SCREEN_SIZE - 1 := hd ▸ hp
  have hcursor' : (console d').cursor < SCREEN_SIZE - 1 := hd' ▸ geometry.advance_lt p
  have hforgets := printf_forgets after hbefore hcursor hcursor' (by rw [hd, hd', hrow])
  rw [← hsplit, hends d hcursor, hends d' hcursor', hd, hd'] at hforgets
  exact Geometry.iterate_advance_succ_ne hp _ hforgets.symm

end Loops

/-- display_string and printf agree on a string without conversions exactly if it has no
newline. -/
theorem pathsAgree_iff (string : Text) (hne : string.chars ≠ []) (hpercent : 0x25 ∉ string.chars) :
    PathsAgree string ↔ 0x0A ∉ string.chars := by
  constructor
  · intro hagree hnewline
    exact not_pathsAgree hpercent hnewline hagree
  · intro hnewline d _
    refine ⟨_, printf_plain hne hpercent, ?_⟩
    rw [foldl_printfCarac hnewline]
    exact ⟨fun _ _ => rfl, rfl⟩

theorem pathsAgree_iff_letters :
    PathsAgree (letters 3) ↔ 0x0A ∉ (letters 3).chars :=
  pathsAgree_iff (letters 3) (by decide) (by decide)

/-- The string of a newline. -/
def newlineText : Text where
  chars := [0x0A]
  zero_notMem := by decide

theorem pathsAgree_newline : ¬ PathsAgree newlineText :=
  not_pathsAgree (by decide) (by decide)

end RathalOS.OutputPaths
