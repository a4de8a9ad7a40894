import RathalOS.Layouts

/-!
Lines typed at the keyboard, read_string of kernel/drivers/shell_drivers.c and read_line of
kernel/display/display.c. Keys are echoed on the screen, from which the line should be read
back at the end. But read_line never looks at the screen: the characters it stores are the
low bytes of the addresses of the cells, which make no printable text.
-/
namespace RathalOS.TypedLines

open ByteMemory Consoles Screen Layouts

def ESC : Byte := 0x02
def ENTER : Byte := 0x0D
def SCREEN_REGISTER : ℕ := 0xB8000

/-- The loop of read_line with some rounds left, with the counter after it. -/
def readLineLoop : ℕ → BitVec 16 → Byte → ℕ → Memory → ℕ × Memory
  | 0, _, _, counter, buf => (counter, buf)
  | rounds + 1, currentRegister, currentChar, counter, buf =>
    if currentChar = 0 then (counter, buf)
    else
      let currentChar := currentRegister.setWidth 8
      readLineLoop rounds (currentRegister + 1) currentChar (counter + 1)
        (Function.update buf counter currentChar)

/-- `read_line`. The address of a cell is kept in 16 bits, and is taken for the cell. -/
def readLine (d : Display) (buf : Memory) : Except Fault (Display × Memory) :=
  let (pos, d) := getCursorPos d
  let lineStart := pos - pos % 80
  let currentRegister := BitVec.ofNat 16 SCREEN_REGISTER + lineStart + 1
  let (counter, buf) := readLineLoop LINE_SIZE currentRegister (currentRegister.setWidth 8) 0 buf
  if counter = 0 then .error .undefined
  else .ok (d, Function.update buf (counter - 1) 0)

/-- "\nSHUTTING DOWN. GOODBYE.\n" -/
def shutdownMessage : Text where
  chars := "\nSHUTTING DOWN. GOODBYE.\n".toList.map fun c => BitVec.ofNat 8 c.toNat
  zero_notMem := by decide

/-- How read_string ends: it returns with the buffer, the machine is halted, or it waits
for a key. -/
inductive Reading
  | returned (buffer : Memory)
  | halted
  | waiting

/-- `read_string`, for the keys that getc delivers. -/
def readString (d : Display) (buffer : Memory) : List Byte → Except Fault (Display × Reading)
  | [] => .ok (d, .waiting)
  | key :: keys =>
    if key = ESC then do
      let d ← printf d shutdownMessage []
      .ok (d, .halted)
    else if key = ENTER then do
      let (d, buffer) ← readLine d buffer
      .ok (d, .returned buffer)
    else readString (displayCarac d key) buffer keys

/-- The line that was typed is in the buffer, with a terminator, and on the screen from the
cursor on, and no byte behind the first 80 of the buffer has changed. -/
structure ReturnsTyped (d : Display) (buffer : Memory) (typed : List Byte) (d' : Display)
    (buffer' : Memory) : Prop where
  characters : ∀ i < typed.length, buffer' i = typed.getD i 0
  terminator : buffer' typed.length = 0
  echo : ∀ i < typed.length,
    (d'.screen ((getCursorPos d).1.toNat + i)).setWidth 8 = typed.getD i 0
  behind : ∀ i, LINE_SIZE ≤ i → buffer' i = buffer i

section Lines

variable {d : Display} {buffer : Memory} {typed : List Byte}

/-- The low byte of an address. -/
def addressByte (currentRegister : BitVec 16) (i : ℕ) : Byte :=
  (currentRegister + BitVec.ofNat 16 i).setWidth 8

theorem addressByte_zero (currentRegister : BitVec 16) :
    addressByte currentRegister 0 = currentRegister.setWidth 8 := by
  rw [addressByte, show BitVec.ofNat 16 0 = 0#16 from rfl, BitVec.add_zero]

theorem addressByte_next (currentRegister : BitVec 16) (i : ℕ) :
    addressByte (currentRegister + 1) i = addressByte currentRegister (i + 1) := by
  rw [addressByte, addressByte, BitVec.add_assoc, BitVec.ofNat_add, BitVec.add_comm 1]
  rfl

theorem addressByte_toNat (currentRegister : BitVec 16) (i : ℕ) :
    (addressByte currentRegister i).toNat = (currentRegister.toNat + i) % 256 := by
  rw [addressByte, BitVec.toNat_setWidth, BitVec.toNat_add, BitVec.toNat_ofNat]
  omega

theorem readLineLoop_zero (rounds : ℕ) (currentRegister : BitVec 16) (counter : ℕ)
    (buf : Memory) : readLineLoop rounds currentRegister 0 counter buf = (counter, buf) := by
  cases rounds with
  | zero => rfl
  | succ rounds => exact if_pos rfl

/-- The loop stores low bytes of addresses up to the first one that is zero. -/
theorem readLineLoop_spec (rounds : ℕ) (currentRegister : BitVec 16) {currentChar : Byte}
    (hchar : currentChar ≠ 0) (counter : ℕ) (buf : Memory) : ∃ stored ≤ rounds,
      readLineLoop rounds currentRegister currentChar counter buf =
        (counter + stored, fun i => if counter ≤ i ∧ i < counter + stored then
          addressByte currentRegister (i - counter) else buf i) ∧
      (∀ i, i + 1 < stored → addressByte currentRegister i ≠ 0) ∧
      (stored < rounds → 0 < stored ∧ addressByte currentRegister (stored - 1) = 0) := by
  induction rounds generalizing currentRegister currentChar counter buf with
  | zero =>
    refine ⟨0, le_rfl, ?_, fun i hi => absurd hi (Nat.not_lt_zero _),
      fun h => absurd h (Nat.lt_irrefl 0)⟩
    rw [readLineLoop]
    congr
    funext i
    rw [if_neg (by omega)]
  | succ rounds ih =>
    rw [readLineLoop, if_neg hchar, ← addressByte_zero]
    by_cases hzero : addressByte currentRegister 0 = 0
    · refine ⟨1, Nat.succ_le_succ (Nat.zero_le _), ?_, fun i hi => absurd hi (by omega),
        fun _ => ⟨Nat.one_pos, hzero⟩⟩
      rw [hzero, readLineLoop_zero]
      congr
      funext i
      by_cases hi : i = counter
      · rw [hi, Function.update_self, if_pos (by omega), Nat.sub_self, hzero]
      · rw [Function.update_of_ne hi, if_neg (by omega)]
    · obtain ⟨stored, hle, hloop, hne, hlast⟩ := ih (currentRegister + 1) hzero (counter + 1)
        (Function.update buf counter (addressByte currentRegister 0))
      refine ⟨stored + 1, Nat.succ_le_succ hle, ?_, ?_, ?_⟩
      · rw [hloop, show counter + 1 + stored = counter + (stored + 1) by omega]
        congr
        funext i
        rw [addressByte_next]
        by_cases hi : i = counter
        · rw [if_neg (by omega), if_pos (by omega), hi, Function.update_self, Nat.sub_self]
        · rw [Function.update_of_ne hi]
          by_cases hin : counter + 1 ≤ i ∧ i < counter + (stored + 1)
          · rw [if_pos (by omega), if_pos (by omega),
              show i - (counter + 1) + 1 = i - counter by omega]
          · rw [if_neg (by omega), if_neg (by omega)]
      · intro i hi
        cases i with
        | zero => exact hzero
        | succ i =>
          rw [← addressByte_next]
          exact hne i (by omega)
      · intro hlt
        obtain ⟨hpos, hend⟩ := hlast (by omega)
        refine ⟨Nat.succ_pos _, ?_⟩
        rw [addressByte_next, Nat.sub_add_cancel hpos] at hend
        rw [Nat.add_sub_cancel]
        exact hend

/-- The address where read_line starts, of the second cell of the row. -/
def lineRegister (d : Display) : BitVec 16 :=
  BitVec.ofNat 16 SCREEN_REGISTER + ((getCursorPos d).1 - (getCursorPos d).1 % 80) + 1

/-- A row starts at an even address. -/
theorem lineRegister_ne (d : Display) : (lineRegister d).setWidth 8 ≠ 0#8 := by
  intro h
  have hmod : ((getCursorPos d).1 % 80).toNat = (getCursorPos d).1.toNat % 80 := rfl
  have hstart : ((getCursorPos d).1 - (getCursorPos d).1 % 80).toNat =
      (getCursorPos d).1.toNat - (getCursorPos d).1.toNat % 80 := by
    rw [BitVec.toNat_sub_of_le, hmod]
    rw [BitVec.le_def, hmod]
    exact Nat.mod_le _ _
  have hscreen : (BitVec.ofNat 16 SCREEN_REGISTER).toNat = 0x8000 := rfl
  have hone : (1 : BitVec 16).toNat = 1 := rfl
  have hzero : (lineRegister d).toNat % 2 ^ 8 = 0 := congrArg BitVec.toNat h
  rw [lineRegister, BitVec.toNat_add, BitVec.toNat_add, hstart, hscreen, hone] at hzero
  omega

/-- `read_line` stores low bytes of addresses and puts the terminator over the last one. -/
theorem readLine_spec (d : Display) (buffer : Memory) : ∃ stored, 0 < stored ∧
    stored ≤ LINE_SIZE ∧
      readLine d buffer = .ok ((getCursorPos d).2, fun i =>
        if i + 1 = stored then 0
        else if i < stored then addressByte (lineRegister d) i else buffer i) ∧
      (∀ i, i + 1 < stored → addressByte (lineRegister d) i ≠ 0) ∧
      (stored < LINE_SIZE → addressByte (lineRegister d) (stored - 1) = 0) := by
  obtain ⟨stored, hle, hloop, hne, hlast⟩ :=
    readLineLoop_spec LINE_SIZE (lineRegister d) (lineRegister_ne d) 0 buffer
  have hpos : 0 < stored := by
    rcases Nat.lt_or_ge stored LINE_SIZE with hlt | hge
    · exact (hlast hlt).1
    · exact Nat.lt_of_lt_of_le (by decide) hge
  refine ⟨stored, hpos, hle, ?_, hne, fun hlt => (hlast hlt).2⟩
  rw [lineRegister] at hloop
  rw [readLine]
  simp only [hloop, Nat.zero_add]
  rw [if_neg (Nat.pos_iff_ne_zero.mp hpos)]
  congr
  funext i
  by_cases hi : i = stored - 1
  · rw [hi, Function.update_self, if_pos (Nat.sub_add_cancel hpos)]
  · rw [Function.update_of_ne hi, if_neg (show i + 1 ≠ stored by omega)]
    simp only [Nat.zero_le, true_and, Nat.sub_zero, lineRegister]

/-- Keys up to the first ENTER are displayed, then the line is read. -/
theorem readString_typed (keys : List Byte) (h : ∀ key ∈ typed, Printable key) :
    readString d buffer (typed ++ ENTER :: keys) = (do
      let (d, buffer) ← readLine (typed.foldl displayCarac d) buffer
      .ok (d, .returned buffer)) := by
  induction typed generalizing d with
  | nil => rfl
  | cons key rest ih =>
    have hesc : key ≠ ESC := fun he => absurd (he ▸ (h key List.mem_cons_self).1) (by decide)
    have henter : key ≠ ENTER :=
      fun he => absurd (he ▸ (h key List.mem_cons_self).1) (by decide)
    rw [List.cons_append, readString, if_neg hesc, if_neg henter, List.foldl_cons]
    exact ih fun key hkey => h key (List.mem_cons_of_mem _ hkey)

theorem getD_printable (h : ∀ key ∈ typed, Printable key) {i : ℕ} (hi : i < typed.length) :
    Printable (typed.getD i 0) := by
  rw [List.getD_eq_getElem?_getD, List.getElem?_eq_getElem hi]
  exact h _ (List.getElem_mem hi)

/-- Printable text is not what read_line stores: the byte before a zero one is 255. -/
theorem stored_ne_typed {currentRegister : BitVec 16} {stored : ℕ} {buffer' : Memory}
    (hfirst : addressByte currentRegister 0 ≠ 0) (h : ∀ key ∈ typed, Printable key)
    (hlength : typed.length + 1 < LINE_SIZE)
    (hbuffer : buffer' = fun i => if i + 1 = stored then 0
      else if i < stored then addressByte currentRegister i else buffer i)
    (hpos : 0 < stored) (hne : ∀ i, i + 1 < stored → addressByte currentRegister i ≠ 0)
    (hlast : stored < LINE_SIZE → addressByte currentRegister (stored - 1) = 0) :
    ¬ ((∀ i < typed.length, buffer' i = typed.getD i 0) ∧ buffer' typed.length = 0) := by
  rintro ⟨hcharacters, hterminator⟩
  have hge : stored ≤ typed.length + 1 := by
    by_contra hlt
    rw [hbuffer] at hterminator
    simp only at hterminator
    rw [if_neg (by omega), if_pos (by omega)] at hterminator
    exact hne _ (by omega) hterminator
  have hzero := hlast (by omega)
  have hmore : stored ≠ 1 := by
    intro hone
    rw [hone] at hzero
    exact hfirst hzero
  have hprintable : ∀ i < typed.length, Printable (buffer' i) := fun i hi => by
    rw [hcharacters i hi]
    exact getD_printable h hi
  rcases Nat.lt_or_ge (stored - 1) typed.length with hlt | hle
  · -- The terminator stands within the typed text.
    have hend := (hprintable _ hlt).1
    rw [hbuffer] at hend
    simp only at hend
    rw [if_pos (by omega)] at hend
    exact absurd hend (by decide)
  · have hend := (hprintable (stored - 2) (by omega)).2
    rw [hbuffer] at hend
    simp only at hend
    rw [if_neg (by omega), if_pos (by omega), addressByte_toNat] at hend
    have hwrap : (currentRegister.toNat + (stored - 1)) % 256 = 0 := by
      rw [← addressByte_toNat, hzero]
      rfl
    omega

/-- What is typed is echoed from the cursor on, where there is room for it. -/
theorem echoed (h : ∀ key ∈ typed, Printable key)
    (hroom : (getCursorPos d).1.toNat + typed.length < SCREEN_SIZE - 1) {i : ℕ}
    (hi : i < typed.length) :
    ((typed.foldl displayCarac d).screen ((getCursorPos d).1.toNat + i)).setWidth 8 =
      typed.getD i 0 := by
  have hcursor : (console d).cursor < SCREEN_SIZE - 1 := Nat.lt_of_add_right_lt hroom
  have hfits : (console d).cursor + (typed.map (cell d.currentColor)).length <
      geometry.limit := by
    rw [List.length_map]
    exact hroom
  have hcell := (foldl_put_of_fits (cell d.currentColor 0) hfits).2 ((console d).cursor + i)
  rw [← console_foldl_displayCarac (newline_notMem h) hcursor, if_pos (Nat.le_add_right _ _),
    Nat.add_sub_cancel_left] at hcell
  change ((console (typed.foldl displayCarac d)).cells ((console d).cursor + i)).setWidth 8 = _
  rw [hcell, List.getD_eq_getElem?_getD, List.getElem?_map, List.getElem?_eq_getElem hi,
    Option.map_some, Option.getD_some, cell_shows, List.getD_eq_getElem?_getD,
    List.getElem?_eq_getElem hi, Option.getD_some]

end Lines

/-- A typed line is echoed, where there is room for it, but what is typed is never what is
returned. -/
theorem readString_never (d : Display) (buffer : Memory) {typed : List Byte}
    (h : ∀ key ∈ typed, Printable key) (hlength : typed.length ≤ 78) (keys : List Byte) :
    ∃ d' buffer', readString d buffer (typed ++ ENTER :: keys) = .ok (d', .returned buffer') ∧
      ¬ ReturnsTyped d buffer typed d' buffer' ∧
      (∀ i, LINE_SIZE ≤ i → buffer' i = buffer i) ∧
      ((getCursorPos d).1.toNat + typed.length < SCREEN_SIZE - 1 → ∀ i < typed.length,
        (d'.screen ((getCursorPos d).1.toNat + i)).setWidth 8 = typed.getD i 0) := by
  obtain ⟨stored, hpos, hle, hread, hne, hlast⟩ :=
    readLine_spec (typed.foldl displayCarac d) buffer
  refine ⟨(getCursorPos (typed.foldl displayCarac d)).2, _,
    by rw [readString_typed keys h, hread]; rfl, fun hreturns => ?_, fun i hi => ?_,
    fun hroom i hi => echoed h hroom hi⟩
  · refine stored_ne_typed ?_ h (Nat.lt_succ_of_le (Nat.succ_le_succ hlength)) rfl hpos hne hlast
      ⟨hreturns.characters, hreturns.terminator⟩
    rw [addressByte_zero]
    exact lineRegister_ne _
  · have hfar : stored ≤ i := le_trans hle hi
    rw [if_neg (by omega), if_neg (by omega)]

/-- A clean screen with the prompt of the shell on a row, and the cursor after it. -/
def prompted (row : Fin COLUMN_SIZE) : Display where
  screen := Function.update (fun _ => 0x0C00) (row.val * LINE_SIZE) (cell BASE_COLOR 0x3E)
  written := []
  command := 0
  registers := fun register =>
    if register = 0xE then (BitVec.ofNat 16 (row.val * LINE_SIZE + 1) >>> 8).setWidth 8
    else (BitVec.ofNat 16 (row.val * LINE_SIZE + 1)).setWidth 8
  currentColor := BASE_COLOR
  state := 0

/-- The letter a is typed at the prompt on the first row, and the low byte of the address of
its cell is returned. -/
theorem readString_letter : (getCursorPos (prompted 0)).1 = 1 ∧
    ∃ d' buffer', readString (prompted 0) (fun _ => 0) [0x61, ENTER] =
        .ok (d', .returned buffer') ∧ buffer' 0 = 0x01 ∧
      ¬ ReturnsTyped (prompted 0) (fun _ => 0) [0x61] d' buffer' := by
  obtain ⟨stored, hpos, -, hread, -, hlast⟩ :=
    readLine_spec (displayCarac (prompted 0) 0x61) fun _ => 0
  have hcursor : (getCursorPos (displayCarac (prompted 0) 0x61)).1 = 2 := by
    change (getCursorPos (changeCursorPos _ ((getCursorPos (prompted 0)).1 + 1)).1).1 = 2
    rw [changeCursorPos_of_lt (by decide), getCursorPos_moveCursor]
    decide
  have hfirst : addressByte (lineRegister (displayCarac (prompted 0) 0x61)) 0 = 0x01 := by
    rw [lineRegister, hcursor]
    decide
  have hmore : 0 + 1 ≠ stored := by
    intro hone
    rw [← hone] at hlast
    exact absurd (hfirst.symm.trans (hlast (by decide))) (by decide)
  refine ⟨by decide, _, fun i => if i + 1 = stored then 0 else if i < stored then
    addressByte (lineRegister (displayCarac (prompted 0) 0x61)) i else 0,
    by rw [readString, if_neg (by decide), if_neg (by decide), readString, if_neg (by decide),
      if_pos rfl, hread]; rfl, ?_, fun h => ?_⟩
  · simp only
    rw [if_neg hmore, if_pos hpos]
    exact hfirst
  · have hchar := h.characters 0 Nat.one_pos
    rw [if_neg hmore, if_pos hpos, hfirst] at hchar
    exact absurd hchar (by decide)

/-- The same line on the last row. -/
theorem readString_never_letter :
    (∀ key ∈ ([0x61] : List Byte), Printable key) ∧ ([0x61] : List Byte).length ≤ 78 ∧
      ∃ d' buffer', readString (prompted 24) (fun _ => 0) ([0x61] ++ ENTER :: []) =
          .ok (d', .returned buffer') ∧
        ¬ ReturnsTyped (prompted 24) (fun _ => 0) [0x61] d' buffer' := by
  have h : ∀ key ∈ ([0x61] : List Byte), Printable key := by
    intro key hkey
    rw [List.mem_singleton.mp hkey]
    exact ⟨by decide, by decide⟩
  obtain ⟨d', buffer', hread, hnot, -⟩ :=
    readString_never (prompted 24) (fun _ => 0) h (by decide) []
  exact ⟨h, by decide, d', buffer', hread, hnot⟩

end RathalOS.TypedLines
