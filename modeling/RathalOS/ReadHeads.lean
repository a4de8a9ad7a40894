import RathalOS.Formatting

/-!
The read head of printf, kernel/display/display.c. The loop advances the head before it
looks for the terminator, and a conversion advances it once more. The head stays in the
format unless the format is empty or ends in a '%' that begins a conversion, and the same
goes for each string that a '%s' makes the format of another call.
-/
namespace RathalOS.ReadHeads

open ByteMemory Screen PrintedNumbers Formatting

/-- A string in memory, with what lies behind its terminator. -/
structure Stored where
  text : Text
  behind : Memory

def Stored.byte (fmt : Stored) (position : ℕ) : Byte :=
  if position ≤ fmt.text.chars.length then fmt.text.chars.getD position 0
  else fmt.behind position

/-- The words on the stack behind the format of a call, and the strings they would be the
addresses of. A call is named by the counts of the arguments that led to it, the last one
first. -/
structure Stack where
  word : List ℕ → ℕ → BitVec 32
  string : List ℕ → ℕ → Stored

/-- A position of the read head that printf dereferences. -/
structure Head where
  fmt : Stored
  position : ℕ

/-- The head is at or before the terminator. -/
def Head.Inside (head : Head) : Prop := head.position ≤ head.fmt.text.chars.length

structure Trace where
  heads : List Head
  output : List Output

def Trace.nil : Trace := ⟨[], []⟩

/-- The switch over the character after a '%' in a call with the given name, with the count
after it. -/
def convertTrace (call : List ℕ → Stored → Option Trace) (stack : Stack) (name : List ℕ)
    (conversion : Byte) (cnt : ℕ) : Option (Trace × ℕ) :=
  if conversion = 0x63 then
    some (⟨[], [.carac ((stack.word name (cnt + 1)).setWidth 8)]⟩, cnt + 1)
  else if conversion = 0x73 then do
    let shown ← call ((cnt + 1) :: name) (stack.string name (cnt + 1))
    some (shown, cnt + 1)
  else if conversion = 0x64 then do
    let digits ← (printIntOutput (stack.word name (cnt + 1)) 10).toOption
    some (⟨[], digits.map .carac⟩, cnt + 1)
  else if conversion = 0x78 then do
    let digits ← (printIntOutput (stack.word name (cnt + 1)) 16).toOption
    some (⟨[], digits.map .carac⟩, cnt + 1)
  else some (.nil, cnt)

/-- The test at the end of the loop. -/
def unlessZero (carac : Byte) (rest : Option Trace) : Option Trace :=
  if carac = 0 then some .nil else rest

/-- printf from a position of the read head on, if it ends before the fuel does. -/
def printfTrace (stack : Stack) : ℕ → List ℕ → Stored → ℕ → ℕ → Option Trace
  | 0, _, _, _, _ => none
  | fuel + 1, name, fmt, rh, cnt =>
    if fmt.byte rh = 0x25 then do
      let (shown, cnt) ← convertTrace (fun name fmt => printfTrace stack fuel name fmt 0 0)
        stack name (fmt.byte (rh + 1)) cnt
      let rest ← unlessZero (fmt.byte (rh + 2)) (printfTrace stack fuel name fmt (rh + 2) cnt)
      some ⟨⟨fmt, rh⟩ :: ⟨fmt, rh + 1⟩ :: shown.heads ++ ⟨fmt, rh + 2⟩ :: rest.heads,
        shown.output ++ rest.output⟩
    else do
      let rest ← unlessZero (fmt.byte (rh + 1)) (printfTrace stack fuel name fmt (rh + 1) cnt)
      some ⟨⟨fmt, rh⟩ :: ⟨fmt, rh + 1⟩ :: rest.heads,
        literal (fmt.byte rh) :: rest.output⟩

/-- printf ends without a look behind the terminator of any format. -/
def NeverOverreads (stack : Stack) (fmt : Stored) : Prop :=
  ∃ fuel trace, printfTrace stack fuel [] fmt 0 0 = some trace ∧
    ∀ head ∈ trace.heads, head.Inside

/-- The rest of a format is a sequence of characters and whole conversions, and the formats
of the calls that its '%s' make are as well, and not empty. -/
inductive Contained (stack : Stack) : List ℕ → ℕ → List Byte → Prop
  | nil {name : List ℕ} {cnt : ℕ} : Contained stack name cnt []
  | plain {name : List ℕ} {cnt : ℕ} {carac : Byte} {rh : List Byte} (hne : carac ≠ 0x25)
      (rest : Contained stack name cnt rh) : Contained stack name cnt (carac :: rh)
  | word {name : List ℕ} {cnt : ℕ} {conversion : Byte} {rh : List Byte}
      (hword : conversion = 0x63 ∨ conversion = 0x64 ∨ conversion = 0x78)
      (rest : Contained stack name (cnt + 1) rh) :
      Contained stack name cnt (0x25 :: conversion :: rh)
  | string {name : List ℕ} {cnt : ℕ} {rh : List Byte}
      (hne : (stack.string name (cnt + 1)).text.chars ≠ [])
      (nested : Contained stack ((cnt + 1) :: name) 0 (stack.string name (cnt + 1)).text.chars)
      (rest : Contained stack name (cnt + 1) rh) : Contained stack name cnt (0x25 :: 0x73 :: rh)
  | unknown {name : List ℕ} {cnt : ℕ} {conversion : Byte} {rh : List Byte}
      (hother : conversion ≠ 0x63 ∧ conversion ≠ 0x73 ∧ conversion ≠ 0x64 ∧ conversion ≠ 0x78)
      (rest : Contained stack name cnt rh) : Contained stack name cnt (0x25 :: conversion :: rh)

section Bytes

variable {fmt : Stored} {p : ℕ} {carac : Byte} {rest : List Byte}

theorem drop_eq_byte (h : p < fmt.text.chars.length) :
    fmt.text.chars.drop p = fmt.byte p :: fmt.text.chars.drop (p + 1) := by
  rw [Stored.byte, if_pos h.le, List.getD_eq_getElem?_getD, List.getElem?_eq_getElem h,
    Option.getD_some]
  exact List.drop_eq_getElem_cons h

theorem byte_of_drop (h : fmt.text.chars.drop p = carac :: rest) :
    fmt.byte p = carac ∧ p < fmt.text.chars.length ∧ carac ≠ 0 ∧
      fmt.text.chars.drop (p + 1) = rest := by
  have hlt : p < fmt.text.chars.length := by
    by_contra hge
    rw [List.drop_eq_nil_of_le (Nat.le_of_not_lt hge)] at h
    cases h
  rw [drop_eq_byte hlt] at h
  obtain ⟨hcarac, hrest⟩ := List.cons.inj h
  refine ⟨hcarac, hlt, ?_, hrest⟩
  rintro rfl
  have hmem : fmt.byte p ∈ fmt.text.chars.drop p := by
    rw [drop_eq_byte hlt]
    exact List.mem_cons_self
  exact fmt.text.zero_notMem (hcarac ▸ List.mem_of_mem_drop hmem)

theorem byte_terminator : fmt.byte fmt.text.chars.length = 0 := by
  rw [Stored.byte, if_pos le_rfl, List.getD_eq_getElem?_getD, List.getElem?_eq_none le_rfl,
    Option.getD_none]

end Bytes

section Rounds

variable {stack : Stack} {fuel : ℕ} {name : List ℕ} {fmt : Stored} {rh cnt : ℕ} {trace : Trace}

/-- A round of the loop over a conversion. -/
theorem printfTrace_conversion_iff (h : fmt.byte rh = 0x25) :
    printfTrace stack (fuel + 1) name fmt rh cnt = some trace ↔ ∃ shown cnt' rest,
      convertTrace (fun name fmt => printfTrace stack fuel name fmt 0 0) stack name
        (fmt.byte (rh + 1)) cnt = some (shown, cnt') ∧
      unlessZero (fmt.byte (rh + 2)) (printfTrace stack fuel name fmt (rh + 2) cnt') = some rest ∧
      trace = ⟨⟨fmt, rh⟩ :: ⟨fmt, rh + 1⟩ :: shown.heads ++ ⟨fmt, rh + 2⟩ :: rest.heads,
        shown.output ++ rest.output⟩ := by
  rw [printfTrace, if_pos h]
  constructor
  · intro hrun
    obtain ⟨⟨shown, cnt'⟩, hshown, hrun⟩ := Option.bind_eq_some_iff.mp hrun
    obtain ⟨rest, hrest, hrun⟩ := Option.bind_eq_some_iff.mp hrun
    exact ⟨shown, cnt', rest, hshown, hrest, (Option.some.inj hrun).symm⟩
  · rintro ⟨shown, cnt', rest, hshown, hrest, rfl⟩
    exact Option.bind_eq_some_iff.mpr ⟨(shown, cnt'), hshown,
      Option.bind_eq_some_iff.mpr ⟨rest, hrest, rfl⟩⟩

/-- A round over any other character. -/
theorem printfTrace_plain_iff (h : fmt.byte rh ≠ 0x25) :
    printfTrace stack (fuel + 1) name fmt rh cnt = some trace ↔ ∃ rest,
      unlessZero (fmt.byte (rh + 1)) (printfTrace stack fuel name fmt (rh + 1) cnt) = some rest ∧
      trace = ⟨⟨fmt, rh⟩ :: ⟨fmt, rh + 1⟩ :: rest.heads,
        literal (fmt.byte rh) :: rest.output⟩ := by
  rw [printfTrace, if_neg h]
  constructor
  · intro hrun
    obtain ⟨rest, hrest, hrun⟩ := Option.bind_eq_some_iff.mp hrun
    exact ⟨rest, hrest, (Option.some.inj hrun).symm⟩
  · rintro ⟨rest, hrest, rfl⟩
    exact Option.bind_eq_some_iff.mpr ⟨rest, hrest, rfl⟩

end Rounds

section Fuel

variable {stack : Stack}

theorem unlessZero_mono {carac : Byte} {rest rest' : Option Trace} {trace : Trace}
    (hrest : ∀ t, rest = some t → rest' = some t) (h : unlessZero carac rest = some trace) :
    unlessZero carac rest' = some trace := by
  unfold unlessZero at h ⊢
  split
  · rename_i hzero
    rw [if_pos hzero] at h
    exact h
  · rename_i hzero
    rw [if_neg hzero] at h
    exact hrest trace h

theorem convertTrace_mono {call call' : List ℕ → Stored → Option Trace}
    (hcall : ∀ name fmt t, call name fmt = some t → call' name fmt = some t)
    {name : List ℕ} {conversion : Byte} {cnt : ℕ} {r : Trace × ℕ}
    (h : convertTrace call stack name conversion cnt = some r) :
    convertTrace call' stack name conversion cnt = some r := by
  unfold convertTrace at h ⊢
  by_cases hc : conversion = 0x63
  · rw [if_pos hc] at h ⊢
    exact h
  · rw [if_neg hc] at h ⊢
    by_cases hs : conversion = 0x73
    · rw [if_pos hs] at h ⊢
      obtain ⟨shown, hshown, h⟩ := Option.bind_eq_some_iff.mp h
      exact Option.bind_eq_some_iff.mpr ⟨shown, hcall _ _ _ hshown, h⟩
    · rw [if_neg hs] at h ⊢
      exact h

/-- A call that ends also ends with more fuel. -/
theorem printfTrace_mono {fuel fuel' : ℕ} (hle : fuel ≤ fuel') {name : List ℕ} {fmt : Stored}
    {rh cnt : ℕ} {trace : Trace} (h : printfTrace stack fuel name fmt rh cnt = some trace) :
    printfTrace stack fuel' name fmt rh cnt = some trace := by
  induction fuel generalizing fuel' name fmt rh cnt trace with
  | zero => cases h
  | succ fuel ih =>
    cases fuel' with
    | zero => exact absurd hle (Nat.not_succ_le_zero fuel)
    | succ fuel' =>
      have hle' : fuel ≤ fuel' := Nat.le_of_succ_le_succ hle
      by_cases hconversion : fmt.byte rh = 0x25
      · obtain ⟨shown, cnt', rest, hshown, hrest, htrace⟩ :=
          (printfTrace_conversion_iff hconversion).mp h
        exact (printfTrace_conversion_iff hconversion).mpr ⟨shown, cnt', rest,
          convertTrace_mono (fun _ _ _ hcall => ih hle' hcall) hshown,
          unlessZero_mono (fun _ hrun => ih hle' hrun) hrest, htrace⟩
      · obtain ⟨rest, hrest, htrace⟩ := (printfTrace_plain_iff hconversion).mp h
        exact (printfTrace_plain_iff hconversion).mpr ⟨rest,
          unlessZero_mono (fun _ hrun => ih hle' hrun) hrest, htrace⟩

end Fuel

/-- printf ends from a position on with some outputs, and its heads are inside. -/
def Ends (stack : Stack) (name : List ℕ) (fmt : Stored) (rh cnt : ℕ) (output : List Output) :
    Prop :=
  ∃ fuel trace, printfTrace stack fuel name fmt rh cnt = some trace ∧
    (∀ head ∈ trace.heads, head.Inside) ∧ trace.output = output

/-- It ends at the terminator or goes on from the position. -/
def EndsAt (stack : Stack) (name : List ℕ) (fmt : Stored) (rh cnt : ℕ) (output : List Output) :
    Prop :=
  ∃ fuel trace, unlessZero (fmt.byte rh) (printfTrace stack fuel name fmt rh cnt) = some trace ∧
    (∀ head ∈ trace.heads, head.Inside) ∧ trace.output = output

/-- A conversion ends with some outputs and a count. -/
def Converts (stack : Stack) (name : List ℕ) (conversion : Byte) (cnt : ℕ)
    (output : List Output) (cnt' : ℕ) : Prop :=
  ∃ fuel shown, convertTrace (fun name fmt => printfTrace stack fuel name fmt 0 0) stack name
      conversion cnt = some (shown, cnt') ∧
    (∀ head ∈ shown.heads, head.Inside) ∧ shown.output = output

section Ending

variable {stack : Stack} {name : List ℕ} {fmt : Stored} {rh cnt cnt' : ℕ}
  {carac conversion : Byte} {rest : List Byte} {output shown : List Output}

theorem endsAt_nil (h : fmt.text.chars.drop rh = []) (hrh : rh ≤ fmt.text.chars.length) :
    EndsAt stack name fmt rh cnt [] := by
  have hlast : rh = fmt.text.chars.length :=
    Nat.le_antisymm hrh (List.drop_eq_nil_iff.mp h)
  refine ⟨0, .nil, ?_, fun head hmem => absurd hmem List.not_mem_nil, rfl⟩
  rw [hlast, byte_terminator, unlessZero, if_pos rfl]

theorem Ends.endsAt (h : fmt.text.chars.drop rh = carac :: rest)
    (hends : Ends stack name fmt rh cnt output) : EndsAt stack name fmt rh cnt output := by
  obtain ⟨hbyte, -, hne, -⟩ := byte_of_drop h
  obtain ⟨fuel, trace, hrun, hinside⟩ := hends
  refine ⟨fuel, trace, ?_, hinside⟩
  rw [unlessZero, hbyte, if_neg hne, hrun]

theorem ends_plain (h : fmt.text.chars.drop rh = carac :: rest) (hne : carac ≠ 0x25)
    (hends : EndsAt stack name fmt (rh + 1) cnt output) :
    Ends stack name fmt rh cnt (literal carac :: output) := by
  obtain ⟨hbyte, hlt, -, -⟩ := byte_of_drop h
  obtain ⟨fuel, trace, hrun, hinside, hout⟩ := hends
  refine ⟨fuel + 1, _, (printfTrace_plain_iff (by rw [hbyte]; exact hne)).mpr
    ⟨trace, hrun, rfl⟩, ?_, ?_⟩
  · intro head hmem
    rcases List.mem_cons.mp hmem with rfl | hmem
    · exact hlt.le
    · rcases List.mem_cons.mp hmem with rfl | hmem
      · exact hlt
      · exact hinside head hmem
  · rw [hbyte, hout]

theorem ends_conversion (h : fmt.text.chars.drop rh = 0x25 :: conversion :: rest)
    (hconverts : Converts stack name conversion cnt shown cnt')
    (hends : EndsAt stack name fmt (rh + 2) cnt' output) :
    Ends stack name fmt rh cnt (shown ++ output) := by
  obtain ⟨hbyte, hlt, -, hnext⟩ := byte_of_drop h
  obtain ⟨hbyte', hlt', -, -⟩ := byte_of_drop hnext
  obtain ⟨fuel, trace, hconvert, hinside, hout⟩ := hconverts
  obtain ⟨fuel', trace', hrun, hinside', hout'⟩ := hends
  have hconvert' : convertTrace (fun name fmt => printfTrace stack (max fuel fuel') name fmt 0 0)
      stack name conversion cnt = some (trace, cnt') :=
    convertTrace_mono (fun _ _ _ hcall => printfTrace_mono (Nat.le_max_left _ _) hcall) hconvert
  have hrun' : unlessZero (fmt.byte (rh + 2))
      (printfTrace stack (max fuel fuel') name fmt (rh + 2) cnt') = some trace' :=
    unlessZero_mono (fun _ hrest => printfTrace_mono (Nat.le_max_right _ _) hrest) hrun
  rw [← hbyte'] at hconvert'
  refine ⟨max fuel fuel' + 1, _, (printfTrace_conversion_iff hbyte).mpr
    ⟨trace, cnt', trace', hconvert', hrun', rfl⟩, ?_, ?_⟩
  · intro head hmem
    rcases List.mem_append.mp hmem with hmem | hmem
    · rcases List.mem_cons.mp hmem with rfl | hmem
      · exact hlt.le
      · rcases List.mem_cons.mp hmem with rfl | hmem
        · exact hlt
        · exact hinside head hmem
    · rcases List.mem_cons.mp hmem with rfl | hmem
      · exact hlt'
      · exact hinside' head hmem
  · rw [← hout, ← hout']

theorem converts_carac : Converts stack name 0x63 cnt
    [.carac ((stack.word name (cnt + 1)).setWidth 8)] (cnt + 1) :=
  ⟨0, _, rfl, fun _ hmem => absurd hmem List.not_mem_nil, rfl⟩

theorem converts_decimal {digits : List Byte}
    (h : printIntOutput (stack.word name (cnt + 1)) 10 = .ok digits) :
    Converts stack name 0x64 cnt (digits.map .carac) (cnt + 1) := by
  refine ⟨0, ⟨[], digits.map .carac⟩, ?_, fun _ hmem => absurd hmem List.not_mem_nil, rfl⟩
  change Option.bind (printIntOutput (stack.word name (cnt + 1)) 10).toOption _ = _
  rw [h]
  rfl

theorem converts_hexadecimal {digits : List Byte}
    (h : printIntOutput (stack.word name (cnt + 1)) 16 = .ok digits) :
    Converts stack name 0x78 cnt (digits.map .carac) (cnt + 1) := by
  refine ⟨0, ⟨[], digits.map .carac⟩, ?_, fun _ hmem => absurd hmem List.not_mem_nil, rfl⟩
  change Option.bind (printIntOutput (stack.word name (cnt + 1)) 16).toOption _ = _
  rw [h]
  rfl

/-- A conversion of a word always ends. -/
theorem converts_word (h : conversion = 0x63 ∨ conversion = 0x64 ∨ conversion = 0x78) :
    ∃ output, Converts stack name conversion cnt output (cnt + 1) := by
  rcases h with rfl | rfl | rfl
  · exact ⟨_, converts_carac⟩
  · obtain ⟨ret, hret, -⟩ := intDigits_length (stack.word name (cnt + 1))
      (by decide : (10 : BitVec 32).toInt = (10 : ℕ)) le_rfl
    exact ⟨_, converts_decimal (bind_of_ok hret _)⟩
  · obtain ⟨ret, hret, -⟩ := intDigits_length (stack.word name (cnt + 1))
      (by decide : (16 : BitVec 32).toInt = (16 : ℕ)) (by decide)
    exact ⟨_, converts_hexadecimal (bind_of_ok hret _)⟩

theorem Ends.converts
    (h : Ends stack ((cnt + 1) :: name) (stack.string name (cnt + 1)) 0 0 output) :
    Converts stack name 0x73 cnt output (cnt + 1) := by
  obtain ⟨fuel, trace, hrun, hinside⟩ := h
  refine ⟨fuel, trace, ?_, hinside⟩
  change Option.bind (printfTrace stack fuel ((cnt + 1) :: name) (stack.string name (cnt + 1)) 0 0)
    _ = _
  rw [hrun]
  rfl

theorem converts_unknown (h : conversion ≠ 0x63 ∧ conversion ≠ 0x73 ∧ conversion ≠ 0x64 ∧
    conversion ≠ 0x78) : Converts stack name conversion cnt [] cnt := by
  refine ⟨0, .nil, ?_, fun head hmem => absurd hmem List.not_mem_nil, rfl⟩
  rw [convertTrace, if_neg h.1, if_neg h.2.1, if_neg h.2.2.1, if_neg h.2.2.2]

theorem exists_endsAt (hrh : rh ≤ fmt.text.chars.length) (h : fmt.text.chars.drop rh = rest)
    (hends : rest ≠ [] → ∃ output, Ends stack name fmt rh cnt output) :
    ∃ output, EndsAt stack name fmt rh cnt output := by
  cases rest with
  | nil => exact ⟨[], endsAt_nil h hrh⟩
  | cons carac rest =>
    obtain ⟨output, hends⟩ := hends (List.cons_ne_nil _ _)
    exact ⟨output, hends.endsAt h⟩

/-- A contained format is displayed to its end. -/
theorem Contained.ends (h : Contained stack name cnt rest) (hrest : rest ≠ [])
    (hdrop : fmt.text.chars.drop rh = rest) : ∃ output, Ends stack name fmt rh cnt output := by
  induction h generalizing fmt rh with
  | nil => exact absurd rfl hrest
  | plain hne rest ih =>
    obtain ⟨-, hlt, -, hnext⟩ := byte_of_drop hdrop
    obtain ⟨output, hends⟩ := exists_endsAt hlt hnext fun hrest => ih hrest hnext
    exact ⟨_, ends_plain hdrop hne hends⟩
  | word hword rest ih =>
    obtain ⟨-, -, -, hnext⟩ := byte_of_drop hdrop
    obtain ⟨-, hlt, -, hnext⟩ := byte_of_drop hnext
    obtain ⟨output, hends⟩ := exists_endsAt hlt hnext fun hrest => ih hrest hnext
    obtain ⟨shown, hconverts⟩ := converts_word hword
    exact ⟨_, ends_conversion hdrop hconverts hends⟩
  | string hne nested rest ihnested ih =>
    obtain ⟨-, -, -, hnext⟩ := byte_of_drop hdrop
    obtain ⟨-, hlt, -, hnext⟩ := byte_of_drop hnext
    obtain ⟨output, hends⟩ := exists_endsAt hlt hnext fun hrest => ih hrest hnext
    obtain ⟨shown, hshown⟩ := ihnested hne List.drop_zero
    exact ⟨_, ends_conversion hdrop hshown.converts hends⟩
  | unknown hother rest ih =>
    obtain ⟨-, -, -, hnext⟩ := byte_of_drop hdrop
    obtain ⟨-, hlt, -, hnext⟩ := byte_of_drop hnext
    obtain ⟨output, hends⟩ := exists_endsAt hlt hnext fun hrest => ih hrest hnext
    exact ⟨_, ends_conversion hdrop (converts_unknown hother) hends⟩

/-- The head of a call whose heads are inside was before the terminator at its start. -/
theorem lt_of_inside {fuel : ℕ} {trace : Trace}
    (h : printfTrace stack fuel name fmt rh cnt = some trace)
    (hinside : ∀ head ∈ trace.heads, head.Inside) : rh < fmt.text.chars.length := by
  cases fuel with
  | zero => cases h
  | succ fuel =>
    by_cases hconversion : fmt.byte rh = 0x25
    · obtain ⟨shown, cnt', rest, -, -, rfl⟩ := (printfTrace_conversion_iff hconversion).mp h
      exact hinside ⟨fmt, rh + 1⟩ (List.mem_cons_of_mem _ List.mem_cons_self)
    · obtain ⟨rest, -, rfl⟩ := (printfTrace_plain_iff hconversion).mp h
      exact hinside ⟨fmt, rh + 1⟩ (List.mem_cons_of_mem _ List.mem_cons_self)

/-- A conversion whose nested call is contained. -/
theorem contained_of_convert {fuel : ℕ} {shown : Trace}
    (h : convertTrace (fun name fmt => printfTrace stack fuel name fmt 0 0) stack name conversion
      cnt = some (shown, cnt'))
    (hnested : printfTrace stack fuel ((cnt + 1) :: name) (stack.string name (cnt + 1)) 0 0 =
        some shown → (stack.string name (cnt + 1)).text.chars ≠ [] ∧
      Contained stack ((cnt + 1) :: name) 0 (stack.string name (cnt + 1)).text.chars)
    (hrest : Contained stack name cnt' rest) :
    Contained stack name cnt (0x25 :: conversion :: rest) := by
  unfold convertTrace at h
  by_cases hc : conversion = 0x63
  · rw [if_pos hc] at h
    cases h
    exact .word (.inl hc) hrest
  rw [if_neg hc] at h
  by_cases hs : conversion = 0x73
  · rw [if_pos hs] at h
    obtain ⟨trace, hcall, h⟩ := Option.bind_eq_some_iff.mp h
    cases h
    obtain ⟨hne, hcontained⟩ := hnested hcall
    rw [hs]
    exact .string hne hcontained hrest
  rw [if_neg hs] at h
  by_cases hd : conversion = 0x64
  · rw [if_pos hd] at h
    obtain ⟨digits, -, h⟩ := Option.bind_eq_some_iff.mp h
    cases h
    exact .word (.inr (.inl hd)) hrest
  rw [if_neg hd] at h
  by_cases hx : conversion = 0x78
  · rw [if_pos hx] at h
    obtain ⟨digits, -, h⟩ := Option.bind_eq_some_iff.mp h
    cases h
    exact .word (.inr (.inr hx)) hrest
  · rw [if_neg hx] at h
    cases h
    exact .unknown ⟨hc, hs, hd, hx⟩ hrest

/-- The format of a call whose heads are inside is contained. -/
theorem contained_of_inside {fuel : ℕ} {trace : Trace}
    (h : printfTrace stack fuel name fmt rh cnt = some trace)
    (hinside : ∀ head ∈ trace.heads, head.Inside) :
    Contained stack name cnt (fmt.text.chars.drop rh) := by
  induction fuel generalizing name fmt rh cnt trace with
  | zero => cases h
  | succ fuel ih =>
    have hlt := lt_of_inside h hinside
    -- what follows a character or a conversion
    have hrest : ∀ {rh cnt} {rest : Trace},
        unlessZero (fmt.byte rh) (printfTrace stack fuel name fmt rh cnt) = some rest →
        (∀ head ∈ rest.heads, head.Inside) → rh ≤ fmt.text.chars.length →
        Contained stack name cnt (fmt.text.chars.drop rh) := by
      intro rh cnt rest hrun hinside hle
      rw [unlessZero] at hrun
      by_cases hzero : fmt.byte rh = 0
      · have hlast : ¬ rh < fmt.text.chars.length := fun hlt =>
          (byte_of_drop (drop_eq_byte hlt)).2.2.1 hzero
        rw [List.drop_eq_nil_of_le (Nat.le_of_not_lt hlast)]
        exact .nil
      · rw [if_neg hzero] at hrun
        exact ih hrun hinside
    by_cases hconversion : fmt.byte rh = 0x25
    · obtain ⟨shown, cnt', rest, hshown, hrun, rfl⟩ := (printfTrace_conversion_iff hconversion).mp h
      have hend : rh + 2 ≤ fmt.text.chars.length :=
        hinside ⟨fmt, rh + 2⟩ (List.mem_append_right _ List.mem_cons_self)
      have hcontained := hrest hrun (fun head hmem => hinside head
        (List.mem_append_right _ (List.mem_cons_of_mem _ hmem))) hend
      have hnested : ∀ head ∈ shown.heads, head.Inside := fun head hmem => hinside head
        (List.mem_append_left _ (List.mem_cons_of_mem _ (List.mem_cons_of_mem _ hmem)))
      rw [drop_eq_byte hlt, hconversion, drop_eq_byte hend]
      refine contained_of_convert hshown (fun hcall => ⟨?_, ih hcall hnested⟩) hcontained
      exact List.ne_nil_of_length_pos (lt_of_inside hcall hnested)
    · obtain ⟨rest, hrun, rfl⟩ := (printfTrace_plain_iff hconversion).mp h
      rw [drop_eq_byte hlt]
      exact .plain hconversion (hrest hrun (fun head hmem => hinside head
        (List.mem_cons_of_mem _ (List.mem_cons_of_mem _ hmem))) hlt)

end Ending

/-- The arguments are what the stack holds from a count on. -/
inductive Agrees (stack : Stack) (name : List ℕ) : ℕ → List Arg → Prop
  | nil {cnt : ℕ} : Agrees stack name cnt []
  | word {cnt : ℕ} {args : List Arg} (rest : Agrees stack name (cnt + 1) args) :
      Agrees stack name cnt (.word (stack.word name (cnt + 1)) :: args)
  | string {cnt : ℕ} {args : List Arg} (rest : Agrees stack name (cnt + 1) args) :
      Agrees stack name cnt (.string (stack.string name (cnt + 1)).text :: args)

section Agreement

variable {stack : Stack} {name : List ℕ} {fmt : Stored} {rh cnt : ℕ} {conversion : Byte}
  {rest : List Byte} {args args' : List Arg} {output shown : List Output}
  {stringOutput : Text → Except Fault (List Output)}

/-- A string displays the outputs as the format of a call, whatever the call finds. -/
def Nests (stack : Stack) (stringOutput : Text → Except Fault (List Output)) : Prop :=
  ∀ name (fmt : Stored) output, stringOutput fmt.text = .ok output →
    Ends stack name fmt 0 0 output

theorem converts_of_output (hnests : Nests stack stringOutput)
    (hagrees : Agrees stack name cnt args)
    (hok : convertOutput stringOutput conversion args = .ok (shown, args')) :
    ∃ cnt', Converts stack name conversion cnt shown cnt' ∧ Agrees stack name cnt' args' := by
  unfold convertOutput at hok
  by_cases hc : conversion = 0x63
  · rw [if_pos hc] at hok
    rw [hc]
    cases hagrees with
    | nil => cases hok
    | word rest =>
      cases hok
      exact ⟨_, converts_carac, rest⟩
    | string rest => cases hok
  rw [if_neg hc] at hok
  by_cases hs : conversion = 0x73
  · rw [if_pos hs] at hok
    rw [hs]
    cases hagrees with
    | nil => cases hok
    | word rest => cases hok
    | string rest =>
      obtain ⟨output, hstring, hok⟩ := bind_eq_ok hok
      cases hok
      exact ⟨_, (hnests _ _ _ hstring).converts, rest⟩
  rw [if_neg hs] at hok
  by_cases hd : conversion = 0x64
  · rw [if_pos hd] at hok
    rw [hd]
    cases hagrees with
    | nil => cases hok
    | word rest =>
      obtain ⟨digits, hdigits, hok⟩ := bind_eq_ok hok
      cases hok
      exact ⟨_, converts_decimal hdigits, rest⟩
    | string rest => cases hok
  rw [if_neg hd] at hok
  by_cases hx : conversion = 0x78
  · rw [if_pos hx] at hok
    rw [hx]
    cases hagrees with
    | nil => cases hok
    | word rest =>
      obtain ⟨digits, hdigits, hok⟩ := bind_eq_ok hok
      cases hok
      exact ⟨_, converts_hexadecimal hdigits, rest⟩
    | string rest => cases hok
  · rw [if_neg hx] at hok
    cases hok
    exact ⟨cnt, converts_unknown ⟨hc, hs, hd, hx⟩, hagrees⟩

theorem endsAt_of_output (hrh : rh ≤ fmt.text.chars.length)
    (hdrop : fmt.text.chars.drop rh = rest)
    (hok : printfLoopOutput stringOutput rest args = .ok output)
    (hends : rest ≠ [] → Ends stack name fmt rh cnt output) :
    EndsAt stack name fmt rh cnt output := by
  cases rest with
  | nil =>
    cases hok
    exact endsAt_nil hdrop hrh
  | cons carac rest => exact (hends (List.cons_ne_nil _ _)).endsAt hdrop

/-- A format that is displayed with arguments from the stack ends with the same outputs. -/
theorem ends_of_output (hnests : Nests stack stringOutput)
    (hok : printfLoopOutput stringOutput rest args = .ok output)
    (hagrees : Agrees stack name cnt args) (hdrop : fmt.text.chars.drop rh = rest)
    (hrest : rest ≠ []) : Ends stack name fmt rh cnt output := by
  induction rest, args using printfLoopOutput.induct generalizing rh cnt output with
  | case1 args => exact absurd rfl hrest
  | case2 args =>
    rw [printfLoopOutput, if_pos rfl] at hok
    cases hok
  | case3 carac args hne =>
    rw [printfLoopOutput, if_neg hne] at hok
    cases hok
    obtain ⟨-, hlt, -, hnext⟩ := byte_of_drop hdrop
    exact ends_plain hdrop hne (endsAt_nil hnext hlt)
  | case4 conversion rest args ih =>
    obtain ⟨-, -, -, hnext⟩ := byte_of_drop hdrop
    obtain ⟨-, hlt, -, hnext⟩ := byte_of_drop hnext
    obtain ⟨shown, args', output', hconvert, hfollow, rfl⟩ := printfLoopOutput_eq_ok hok
    obtain ⟨cnt', hconverts, hagrees⟩ := converts_of_output hnests hagrees hconvert
    exact ends_conversion hdrop hconverts
      (endsAt_of_output hlt hnext hfollow fun hrest => ih args' hfollow hagrees hnext hrest)
  | case5 carac conversion rest args hne ih =>
    obtain ⟨-, hlt, -, hnext⟩ := byte_of_drop hdrop
    rw [printfLoopOutput_of_ne hne] at hok
    obtain ⟨output', hfollow, houtput⟩ := bind_eq_ok hok
    cases houtput
    exact ends_plain hdrop hne
      (endsAt_of_output hlt hnext hfollow fun hrest => ih hfollow hagrees hnext hrest)

theorem nests_printfStringOutput : Nests stack printfStringOutput := by
  intro name fmt output hok
  unfold printfStringOutput at hok
  split at hok
  · cases hok
  · rename_i hne
    have hnone : Nests stack fun _ => .error .undefined := fun _ _ _ h => by cases h
    exact ends_of_output hnone hok .nil List.drop_zero hne

/-- What printf displays of a format and its arguments it displays with the stack that
holds them, and its head stays inside. -/
theorem ends_of_printfOutput (hok : printfOutput fmt.text args = .ok output)
    (hagrees : Agrees stack name 0 args) : Ends stack name fmt 0 0 output := by
  unfold printfOutput at hok
  split at hok
  · cases hok
  · rename_i hne
    exact ends_of_output nests_printfStringOutput hok hagrees List.drop_zero hne

end Agreement

/-- printf ends without a look behind a terminator exactly if its format is not empty and is
contained. -/
theorem neverOverreads_iff (stack : Stack) (fmt : Stored) :
    NeverOverreads stack fmt ↔
      fmt.text.chars ≠ [] ∧ Contained stack [] 0 fmt.text.chars := by
  constructor
  · intro h
    obtain ⟨fuel, trace, hrun, hinside⟩ := h
    exact ⟨List.ne_nil_of_length_pos (lt_of_inside hrun hinside),
      contained_of_inside hrun hinside⟩
  · intro h
    obtain ⟨output, fuel, trace, hrun, hinside, -⟩ := h.2.ends h.1 List.drop_zero
    exact ⟨fuel, trace, hrun, hinside⟩

/-- A string of no characters, with zeros behind it. -/
def emptyString : Stored where
  text := ⟨[], List.not_mem_nil⟩
  behind := fun _ => 0

/-- A stack of zeros. -/
def zeroStack : Stack where
  word := fun _ _ => 0
  string := fun _ _ => emptyString

/-- The first look at the head of an empty format is at its terminator, the next behind
it. -/
theorem overreads_empty : ¬ NeverOverreads zeroStack emptyString := by
  intro h
  obtain ⟨fuel, trace, hrun, hinside⟩ := h
  exact Nat.not_lt_zero 0 (lt_of_inside hrun hinside)

end RathalOS.ReadHeads
