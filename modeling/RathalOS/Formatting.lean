import RathalOS.PrintedNumbers

/-!
Formatted output, printf of kernel/display/display.c. What it displays is a sequence of
characters and of moves to the next row, which depends on the format and its arguments
only. A string passed for a '%s' is not displayed as it is: it becomes the format of another
call, to which no arguments belong.
-/
namespace RathalOS.Formatting

open ByteMemory Screen PrintedNumbers

/-- A call of display_carac, or a move of the cursor to the start of the next row. -/
inductive Output
  | carac (carac : Byte)
  | nextRow

def emit (d : Display) : Output → Display
  | .carac carac => displayCarac d carac
  | .nextRow => printfCarac d 0x0A

/-- A character that stands for itself in a format. -/
def literal (carac : Byte) : Output := if carac = 0x0A then .nextRow else .carac carac

/-- The outputs of the switch over the character after a '%'. -/
def convertOutput (printString : Text → Except Fault (List Output)) (conversion : Byte)
    (args : List Arg) : Except Fault (List Output × List Arg) :=
  if conversion = 0x63 then
    match args with
    | .word value :: args => .ok ([.carac (value.setWidth 8)], args)
    | _ => .error .undefined
  else if conversion = 0x73 then
    match args with
    | .string value :: args => do
      let output ← printString value
      .ok (output, args)
    | _ => .error .undefined
  else if conversion = 0x64 then
    match args with
    | .word value :: args => do
      let output ← printIntOutput value 10
      .ok (output.map .carac, args)
    | _ => .error .undefined
  else if conversion = 0x78 then
    match args with
    | .word value :: args => do
      let output ← printIntOutput value 16
      .ok (output.map .carac, args)
    | _ => .error .undefined
  else .ok ([], args)

/-- The outputs of the loop of printf. -/
def printfLoopOutput (printString : Text → Except Fault (List Output)) :
    List Byte → List Arg → Except Fault (List Output)
  | [], _ => .ok []
  | [carac], _ => if carac = 0x25 then .error .undefined else .ok [literal carac]
  | carac :: conversion :: rh, args =>
    if carac = 0x25 then do
      let (output, args) ← convertOutput printString conversion args
      let rest ← printfLoopOutput printString rh args
      .ok (output ++ rest)
    else do
      let rest ← printfLoopOutput printString (conversion :: rh) args
      .ok (literal carac :: rest)

def printfStringOutput (fmt : Text) : Except Fault (List Output) :=
  if fmt.chars = [] then .error .undefined
  else printfLoopOutput (fun _ => .error .undefined) fmt.chars []

def printfOutput (fmt : Text) (args : List Arg) : Except Fault (List Output) :=
  if fmt.chars = [] then .error .undefined
  else printfLoopOutput printfStringOutput fmt.chars args

section Outputs

variable {printString : Display → Text → Except Fault Display}
  {stringOutput : Text → Except Fault (List Output)}

/-- The display after a sequence of outputs. -/
def shows (d : Display) (output : List Output) : Display := output.foldl emit d

theorem shows_append (d : Display) (output rest : List Output) :
    shows d (output ++ rest) = shows (shows d output) rest := List.foldl_append

theorem emit_literal (d : Display) (carac : Byte) :
    emit d (literal carac) = printfCarac d carac := by
  rw [literal]
  by_cases h : carac = 0x0A
  · rw [if_pos h, h]
    rfl
  · rw [if_neg h, printfCarac_of_ne h]
    rfl

theorem shows_caracs (d : Display) (text : List Byte) :
    shows d (text.map .carac) = text.foldl displayCarac d := List.foldl_map

theorem printInt_shows (d : Display) (num base : BitVec 32) :
    printInt d num base =
      (printIntOutput num base).map fun output => shows d (output.map .carac) := by
  simp only [shows_caracs]
  exact printInt_eq d num base

/-- The display of a conversion is that of its outputs. -/
theorem convert_shows
    (hstring : ∀ d value, printString d value = (stringOutput value).map (shows d))
    (d : Display) (conversion : Byte) (args : List Arg) :
    convert printString d conversion args =
      (convertOutput stringOutput conversion args).map fun r => (shows d r.1, r.2) := by
  have hnested : ∀ value (args : List Arg), (printString d value >>= fun d => Except.ok (d, args)) =
      Except.map (fun r => (shows d r.1, r.2))
        (stringOutput value >>= fun output => .ok (output, args)) := by
    intro value args
    rw [hstring]
    cases stringOutput value with
    | error e => rfl
    | ok output => rfl
  have hint : ∀ (base value : BitVec 32) (args : List Arg),
      (printInt d value base >>= fun d => Except.ok (d, args)) =
        Except.map (fun r => (shows d r.1, r.2))
          (printIntOutput value base >>= fun output => .ok (output.map .carac, args)) := by
    intro base value args
    rw [printInt_shows]
    cases printIntOutput value base with
    | error e => rfl
    | ok output => rfl
  unfold convert convertOutput
  by_cases hc : conversion = 0x63
  · rw [if_pos hc, if_pos hc]
    rcases args with _ | ⟨value | value, args⟩
    · rfl
    · rfl
    · rfl
  · rw [if_neg hc, if_neg hc]
    by_cases hs : conversion = 0x73
    · rw [if_pos hs, if_pos hs]
      rcases args with _ | ⟨value | value, args⟩
      · rfl
      · rfl
      · exact hnested value args
    · rw [if_neg hs, if_neg hs]
      by_cases hd : conversion = 0x64
      · rw [if_pos hd, if_pos hd]
        rcases args with _ | ⟨value | value, args⟩
        · rfl
        · exact hint 10 value args
        · rfl
      · rw [if_neg hd, if_neg hd]
        by_cases hx : conversion = 0x78
        · rw [if_pos hx, if_pos hx]
          rcases args with _ | ⟨value | value, args⟩
          · rfl
          · exact hint 16 value args
          · rfl
        · rw [if_neg hx, if_neg hx]
          rfl

theorem printfLoop_shows
    (hstring : ∀ d value, printString d value = (stringOutput value).map (shows d))
    (d : Display) (rh : List Byte) (args : List Arg) :
    printfLoop printString d rh args = (printfLoopOutput stringOutput rh args).map (shows d) := by
  induction d, rh, args using printfLoop.induct with
  | case1 d args => rfl
  | case2 d args => rfl
  | case3 d carac args hne =>
    rw [printfLoop, printfLoopOutput, if_neg hne, if_neg hne, ← emit_literal]
    rfl
  | case4 d conversion rh args ih =>
    rw [printfLoop, printfLoopOutput, if_pos rfl, if_pos rfl, convert_shows hstring]
    cases convertOutput stringOutput conversion args with
    | error e => rfl
    | ok r =>
      simp only [Except.map, ok_bind]
      rw [ih]
      cases printfLoopOutput stringOutput rh r.2 with
      | error e => rfl
      | ok rest => exact congrArg Except.ok (shows_append d r.1 rest).symm
  | case5 d carac conversion rh args hne ih =>
    rw [printfLoop, printfLoopOutput, if_neg hne, if_neg hne, ih, ← emit_literal]
    cases printfLoopOutput stringOutput (conversion :: rh) args with
    | error e => rfl
    | ok rest => rfl

theorem printfString_shows (d : Display) (value : Text) :
    printfString d value = (printfStringOutput value).map (shows d) := by
  rw [printfString, printfStringOutput]
  split
  · rfl
  · have hnone : ∀ d (value : Text), (.error .undefined : Except Fault Display) =
        ((fun _ => .error .undefined : Text → Except Fault (List Output)) value).map (shows d) :=
      fun _ _ => rfl
    exact printfLoop_shows hnone d value.chars []

/-- printf leaves the display that its outputs make, one after the other. -/
theorem printf_shows (d : Display) (fmt : Text) (args : List Arg) :
    printf d fmt args = (printfOutput fmt args).map (shows d) := by
  rw [printf, printfOutput]
  split
  · rfl
  · exact printfLoop_shows printfString_shows d fmt.chars args

end Outputs

/-- The rendering of a format that matches its arguments: characters of the format stand for
themselves, a string for its characters, whatever they are, and a number for what
print_int displays of it. -/
inductive Renders : List Byte → List Arg → List Output → Prop
  | nil : Renders [] [] []
  | plain {carac : Byte} {rh : List Byte} {args : List Arg} {output : List Output}
      (hne : carac ≠ 0x25) (rest : Renders rh args output) :
      Renders (carac :: rh) args (literal carac :: output)
  | carac {value : BitVec 32} {rh : List Byte} {args : List Arg} {output : List Output}
      (rest : Renders rh args output) :
      Renders (0x25 :: 0x63 :: rh) (.word value :: args) (.carac (value.setWidth 8) :: output)
  | string {value : Text} {rh : List Byte} {args : List Arg} {output : List Output}
      (rest : Renders rh args output) :
      Renders (0x25 :: 0x73 :: rh) (.string value :: args) (value.chars.map literal ++ output)
  | decimal {value : BitVec 32} {digits rh : List Byte} {args : List Arg} {output : List Output}
      (hdigits : printIntOutput value 10 = .ok digits) (rest : Renders rh args output) :
      Renders (0x25 :: 0x64 :: rh) (.word value :: args) (digits.map .carac ++ output)
  | hexadecimal {value : BitVec 32} {digits rh : List Byte} {args : List Arg}
      {output : List Output} (hdigits : printIntOutput value 16 = .ok digits)
      (rest : Renders rh args output) :
      Renders (0x25 :: 0x78 :: rh) (.word value :: args) (digits.map .carac ++ output)

/-- A string that displays its characters as a format, too. -/
def Plain (value : Text) : Prop := value.chars ≠ [] ∧ 0x25 ∉ value.chars

section Rendering

variable {stringOutput : Text → Except Fault (List Output)} {rh : List Byte} {args : List Arg}
  {output output' : List Output}

theorem printfLoopOutput_of_ne {carac : Byte} (h : carac ≠ 0x25) :
    printfLoopOutput stringOutput (carac :: rh) args = (do
      let rest ← printfLoopOutput stringOutput rh args
      .ok (literal carac :: rest)) := by
  cases rh with
  | nil => simp only [printfLoopOutput, if_neg h, ok_bind]
  | cons conversion rh => rw [printfLoopOutput, if_neg h]

theorem printfLoopOutput_conversion {conversion : Byte} {args' : List Arg}
    {rest : List Output}
    (hconvert : convertOutput stringOutput conversion args = .ok (output, args'))
    (hrest : printfLoopOutput stringOutput rh args' = .ok rest) :
    printfLoopOutput stringOutput (0x25 :: conversion :: rh) args = .ok (output ++ rest) := by
  rw [printfLoopOutput, if_pos rfl, hconvert, ok_bind]
  dsimp only
  rw [hrest, ok_bind]

theorem printfLoopOutput_eq_ok {conversion : Byte}
    (h : printfLoopOutput stringOutput (0x25 :: conversion :: rh) args = .ok output) :
    ∃ shown args' rest, convertOutput stringOutput conversion args = .ok (shown, args') ∧
      printfLoopOutput stringOutput rh args' = .ok rest ∧ output = shown ++ rest := by
  rw [printfLoopOutput, if_pos rfl] at h
  obtain ⟨⟨shown, args'⟩, hconvert, h⟩ := bind_eq_ok h
  obtain ⟨rest, hrest, h⟩ := bind_eq_ok h
  cases h
  exact ⟨shown, args', rest, hconvert, hrest, rfl⟩

theorem printfLoopOutput_plain {text : List Byte} (h : 0x25 ∉ text) :
    printfLoopOutput stringOutput text args = .ok (text.map literal) := by
  induction text with
  | nil => rfl
  | cons carac rest ih =>
    obtain ⟨hne, hrest⟩ := not_or.mp (List.mem_cons.not.mp h)
    rw [printfLoopOutput_of_ne (Ne.symm hne), ih hrest, ok_bind, List.map_cons]

/-- Without arguments a conversion displays nothing, if it returns. -/
theorem convertOutput_nil {conversion : Byte} {r : List Output × List Arg}
    (h : convertOutput stringOutput conversion [] = .ok r) : r = ([], []) := by
  unfold convertOutput at h
  split at h
  · cases h
  · split at h
    · cases h
    · split at h
      · cases h
      · split at h
        · cases h
        · cases h
          rfl

/-- A string that is the format of a call without arguments displays at most its
characters, and all of them only without a conversion. -/
theorem printfLoopOutput_nil_length (hargs : args = [])
    (h : printfLoopOutput stringOutput rh args = .ok output) :
    output.length ≤ rh.length ∧ (output.length = rh.length → 0x25 ∉ rh) := by
  induction rh, args using printfLoopOutput.induct generalizing output with
  | case1 args =>
    cases h
    exact ⟨le_rfl, fun _ => List.not_mem_nil⟩
  | case2 args =>
    rw [printfLoopOutput, if_pos rfl] at h
    cases h
  | case3 carac args hne =>
    rw [printfLoopOutput, if_neg hne] at h
    cases h
    exact ⟨le_rfl, fun _ hmem => hne (List.mem_singleton.mp hmem).symm⟩
  | case4 conversion rh args ih =>
    rw [hargs] at h
    obtain ⟨shown, args', rest, hconvert, hrest, rfl⟩ := printfLoopOutput_eq_ok h
    cases convertOutput_nil hconvert
    obtain ⟨hle, -⟩ := ih [] rfl hrest
    rw [List.nil_append, List.length_cons, List.length_cons]
    exact ⟨by omega, fun heq => by omega⟩
  | case5 carac conversion rh args hne ih =>
    rw [printfLoopOutput_of_ne hne] at h
    obtain ⟨rest, hrest, h⟩ := bind_eq_ok h
    cases h
    obtain ⟨hle, hall⟩ := ih hargs hrest
    rw [List.length_cons, List.length_cons]
    refine ⟨by omega, fun heq hmem => ?_⟩
    rcases List.mem_cons.mp hmem with h | h
    · exact hne h.symm
    · exact hall (by omega) h

theorem printfStringOutput_plain {value : Text} (h : Plain value) :
    printfStringOutput value = .ok (value.chars.map literal) := by
  rw [printfStringOutput, if_neg h.1]
  exact printfLoopOutput_plain h.2

theorem printfStringOutput_length {value : Text} (h : printfStringOutput value = .ok output) :
    output.length ≤ value.chars.length ∧ (output.length = value.chars.length → Plain value) := by
  unfold printfStringOutput at h
  split at h
  · cases h
  · rename_i hne
    obtain ⟨hle, hall⟩ := printfLoopOutput_nil_length rfl h
    exact ⟨hle, fun heq => ⟨hne, hall heq⟩⟩

/-- With strings that contain no conversion a format is rendered. -/
theorem Renders.loop_eq (h : Renders rh args output)
    (hplain : ∀ value, Arg.string value ∈ args → Plain value) :
    printfLoopOutput printfStringOutput rh args = .ok output := by
  induction h with
  | nil => rfl
  | plain hne rest ih => rw [printfLoopOutput_of_ne hne, ih hplain, ok_bind]
  | @carac value rh args output rest ih =>
    have hconvert : convertOutput printfStringOutput 0x63 (.word value :: args) =
        .ok ([.carac (value.setWidth 8)], args) := rfl
    exact printfLoopOutput_conversion hconvert
      (ih fun value hmem => hplain value (List.mem_cons_of_mem _ hmem))
  | @string value rh args output rest ih =>
    have hconvert : convertOutput printfStringOutput 0x73 (.string value :: args) =
        .ok (value.chars.map literal, args) :=
      bind_of_ok (printfStringOutput_plain (hplain value List.mem_cons_self)) _
    exact printfLoopOutput_conversion hconvert
      (ih fun value hmem => hplain value (List.mem_cons_of_mem _ hmem))
  | @decimal value digits rh args output hdigits rest ih =>
    have hconvert : convertOutput printfStringOutput 0x64 (.word value :: args) =
        .ok (digits.map .carac, args) := bind_of_ok hdigits _
    exact printfLoopOutput_conversion hconvert
      (ih fun value hmem => hplain value (List.mem_cons_of_mem _ hmem))
  | @hexadecimal value digits rh args output hdigits rest ih =>
    have hconvert : convertOutput printfStringOutput 0x78 (.word value :: args) =
        .ok (digits.map .carac, args) := bind_of_ok hdigits _
    exact printfLoopOutput_conversion hconvert
      (ih fun value hmem => hplain value (List.mem_cons_of_mem _ hmem))

/-- A conversion that displays a word as it should takes part in no difference. -/
theorem length_of_word {conversion : Byte} {value : BitVec 32} {shown : List Output}
    (hconvert : convertOutput printfStringOutput conversion (.word value :: args) =
      .ok (shown, args))
    (ih : ∀ {output'}, printfLoopOutput printfStringOutput rh args = .ok output' →
      output'.length ≤ output.length ∧
        (output'.length = output.length → ∀ value, Arg.string value ∈ args → Plain value))
    (hok : printfLoopOutput printfStringOutput (0x25 :: conversion :: rh) (.word value :: args) =
      .ok output') :
    output'.length ≤ (shown ++ output).length ∧
      (output'.length = (shown ++ output).length →
        ∀ string, Arg.string string ∈ Arg.word value :: args → Plain string) := by
  obtain ⟨shown', args', rest', hconvert', hrest, rfl⟩ := printfLoopOutput_eq_ok hok
  rw [hconvert] at hconvert'
  cases hconvert'
  obtain ⟨hle, hall⟩ := ih hrest
  rw [List.length_append, List.length_append]
  refine ⟨by omega, fun heq string hmem => ?_⟩
  rcases List.mem_cons.mp hmem with h | hmem
  · cases h
  · exact hall (by omega) string hmem

/-- What printf displays is at most as long as the rendering, and as long only if every
string is displayed as it is. -/
theorem Renders.loop_length (h : Renders rh args output)
    (hok : printfLoopOutput printfStringOutput rh args = .ok output') :
    output'.length ≤ output.length ∧
      (output'.length = output.length → ∀ value, Arg.string value ∈ args → Plain value) := by
  induction h generalizing output' with
  | nil => exact ⟨by cases hok; exact le_rfl, fun _ value hmem => absurd hmem List.not_mem_nil⟩
  | @plain carac rh args output hne rest ih =>
    rw [printfLoopOutput_of_ne hne] at hok
    obtain ⟨rest', hrest, hok⟩ := bind_eq_ok hok
    cases hok
    obtain ⟨hle, hall⟩ := ih hrest
    rw [List.length_cons, List.length_cons]
    exact ⟨by omega, fun heq => hall (by omega)⟩
  | carac rest ih => exact length_of_word rfl ih hok
  | @string value rh args output rest ih =>
    obtain ⟨shown, args', rest', hconvert, hrest, rfl⟩ := printfLoopOutput_eq_ok hok
    obtain ⟨shown', hstring, hconvert⟩ := bind_eq_ok hconvert
    cases hconvert
    obtain ⟨hle, hall⟩ := ih hrest
    obtain ⟨hle', hplain⟩ := printfStringOutput_length hstring
    rw [List.length_append, List.length_append, List.length_map]
    refine ⟨by omega, fun heq string hmem => ?_⟩
    rcases List.mem_cons.mp hmem with h | hmem
    · cases h
      exact hplain (by omega)
    · exact hall (by omega) string hmem
  | decimal hdigits rest ih => exact length_of_word (bind_of_ok hdigits _) ih hok
  | hexadecimal hdigits rest ih => exact length_of_word (bind_of_ok hdigits _) ih hok

end Rendering

/-- printf renders a format exactly if no string among its arguments is empty or contains a
'%'. -/
theorem printfOutput_iff {fmt : Text} {args : List Arg} {output : List Output}
    (hne : fmt.chars ≠ []) (h : Renders fmt.chars args output) :
    printfOutput fmt args = .ok output ↔ ∀ value, Arg.string value ∈ args → Plain value := by
  rw [printfOutput, if_neg hne]
  constructor
  · intro hok
    exact (h.loop_length hok).2 rfl
  · intro hplain
    exact h.loop_eq hplain

section Examples

/-- A format that is one conversion. -/
def conversionFormat (conversion : Byte) (h : conversion ≠ 0) : Text where
  chars := [0x25, conversion]
  zero_notMem := by
    intro hmem
    rcases List.mem_cons.mp hmem with hzero | hmem
    · exact absurd hzero (by decide)
    · exact h (List.mem_singleton.mp hmem).symm

/-- The number 7 as a '%d'. -/
theorem printfOutput_iff_number :
    printfOutput (conversionFormat 0x64 (by decide)) [.word 7] =
      .ok [.carac 0x00, .carac 0x37] := by
  have hdigits : printIntOutput 7 10 = .ok [0x00, 0x37] := by decide
  refine (printfOutput_iff (List.cons_ne_nil _ _) (.decimal hdigits .nil)).mpr fun value hmem => ?_
  rcases List.mem_cons.mp hmem with h | hmem
  · cases h
  · cases hmem

/-- The string of two '%' as a '%s'. -/
theorem printfOutput_percent :
    Renders [0x25, 0x73] [.string (conversionFormat 0x25 (by decide))]
        [.carac 0x25, .carac 0x25] ∧
      printfOutput (conversionFormat 0x73 (by decide))
        [.string (conversionFormat 0x25 (by decide))] = .ok [] :=
  ⟨.string .nil, rfl⟩

end Examples

end RathalOS.Formatting
