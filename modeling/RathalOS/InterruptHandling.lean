import RathalOS.Formatting
import RathalOS.InterruptDelivery
import RathalOS.InterruptedPrograms
import RathalOS.Keyboard

/-!
irq_handler of kernel/idt/idt.c, and the display driver as a program that it interrupts
between two accesses to a port or to the video memory. The timer draws one cell, in the
first row, which scrolling does not copy anywhere, and the colour is set back: apart from
that cell what the kernel displays does not depend on when the timer, the keyboard and the
disk interrupt it.
-/
namespace RathalOS.InterruptHandling

open ByteMemory BoundedFifo Screen Formatting Timer InterruptDelivery InterruptedPrograms

/-- The state that irq_handler works on. The writes to the ports of the interrupt controllers
are recorded. -/
structure Kernel where
  display : Display
  timer : TimerStruct
  keyboard : Keyboard.Driver
  ports : List PortWrite

def changeColor (d : Display) (newColor : Byte) : Display := { d with currentColor := newColor }

def bytes (s : String) : List Byte := s.toList.map fun c => BitVec.ofNat 8 c.toNat

/-- The message for an interrupt that nothing handles. -/
def iqrMessage (n : Fin 16) : Text where
  chars := bytes "IQR EXCEPTION NUMBER " ++ bytes (toString n.val)
  zero_notMem := by
    revert n
    decide

def overflowMessage : Text where
  chars := bytes "KEYBOARD_BUFFER_OVERFLOW"
  zero_notMem := by decide

/-- keyboard_handler with its message. -/
def keyboardCase (k : Kernel) (state scanCode : Byte) : Except Fault Kernel := do
  let (driver, seen) ← Keyboard.keyboardHandler k.keyboard state scanCode
  let k := { k with keyboard := driver }
  match seen with
  | .dropped => do
    let d ← printf k.display overflowMessage []
    .ok { k with display := d }
  | _ => .ok k

/-- The switch of irq_handler; there is no default. -/
def handleIrq (k : Kernel) (number : BitVec 32) (state scanCode : Byte) : Except Fault Kernel :=
  if number = 0 then do
    let (timer, d) ← timerHandler k.timer k.display
    .ok { k with
      timer := timer
      display := d }
  else if number = 1 then keyboardCase k state scanCode
  else if number = 14 then .ok k
  else if h : number.toNat < 16 then do
    let d ← printf k.display (iqrMessage ⟨number.toNat, h⟩) []
    .ok { k with display := d }
  else .ok k

/-- `irq_handler`, with the bytes keyboard_handler finds in the registers of the keyboard. -/
def irqHandler (k : Kernel) (number : BitVec 32) (state scanCode : Byte) : Except Fault Kernel := do
  let k ← handleIrq { k with display := changeColor k.display 0x0A } number state scanCode
  .ok { k with
    display := changeColor k.display 0x0C
    ports := k.ports ++ picEoi number }

/-- An interrupt of a device. -/
structure Irq where
  number : BitVec 32
  state : Byte
  scanCode : Byte

/-- The timer, the keyboard and the disk, for which irq_handler prints nothing. -/
def Irq.Quiet (i : Irq) : Prop := i.number = 0 ∨ i.number = 1 ∨ i.number = 14

section Handler

variable {k k' : Kernel} {i : Irq}

/-- What an interrupt does to the timer. -/
def ticks (i : Irq) (t t' : TimerStruct) : Prop :=
  t' = if i.number = 0 then { t with tick := t.tick + 1 } else t

/-- What it does to the keyboard driver, which no other interrupt calls. -/
def types (i : Irq) (s s' : Keyboard.Driver) : Prop :=
  if i.number = 1 then ∃ seen, Keyboard.keyboardHandler s i.state i.scanCode = .ok (s', seen)
  else s' = s

/-- The size is an unsigned char, so the buffer is never seen to be full. -/
theorem seen_ne_dropped {s s' : Keyboard.Driver} {state scanCode : Byte} {seen : Observation Byte}
    (h : Keyboard.keyboardHandler s state scanCode = .ok (s', seen)) : seen ≠ .dropped := by
  rintro rfl
  by_cases hordinary : Keyboard.OrdinaryPress state scanCode
  · obtain ⟨s'', hok, -⟩ := Keyboard.keyboardHandler_ordinary s hordinary
    rw [hok] at h
    cases h
  · obtain ⟨s'', hok, -⟩ := Keyboard.keyboardHandler_other s hordinary
    rw [hok] at h
    cases h

theorem keyboardCase_eq (state scanCode : Byte) (h : keyboardCase k state scanCode = .ok k') :
    ∃ driver seen, Keyboard.keyboardHandler k.keyboard state scanCode = .ok (driver, seen) ∧
      k' = { k with keyboard := driver } := by
  obtain ⟨⟨driver, seen⟩, hhandler, hseen⟩ := bind_eq_ok h
  refine ⟨driver, seen, hhandler, ?_⟩
  have hne := seen_ne_dropped hhandler
  cases seen with
  | dropped => exact absurd rfl hne
  | _ =>
    cases hseen
    rfl

/-- The first part of irq_handler changes the display, and what its interrupt is about. -/
theorem handleIrq_eq (h : handleIrq k i.number i.state i.scanCode = .ok k') :
    ticks i k.timer k'.timer ∧ types i k.keyboard k'.keyboard ∧ k'.ports = k.ports := by
  unfold handleIrq at h
  unfold ticks types
  split at h
  · rename_i hzero
    obtain ⟨⟨timer, d⟩, htimer, hok⟩ := bind_eq_ok h
    obtain ⟨d', -, hret⟩ := bind_eq_ok htimer
    cases hret
    cases hok
    rw [if_pos hzero, hzero, if_neg (by decide)]
    exact ⟨rfl, rfl, rfl⟩
  · rename_i hzero
    rw [if_neg hzero]
    split at h
    · rename_i hone
      obtain ⟨driver, seen, hhandler, rfl⟩ := keyboardCase_eq i.state i.scanCode h
      rw [if_pos hone]
      exact ⟨rfl, ⟨seen, hhandler⟩, rfl⟩
    · rename_i hone
      rw [if_neg hone]
      split at h
      · cases h
        exact ⟨rfl, rfl, rfl⟩
      · split at h
        · obtain ⟨d, -, hok⟩ := bind_eq_ok h
          cases hok
          exact ⟨rfl, rfl, rfl⟩
        · cases h
          exact ⟨rfl, rfl, rfl⟩

/-- What an interrupt leaves of everything but the display. -/
theorem irqHandler_eq (h : irqHandler k i.number i.state i.scanCode = .ok k') :
    ticks i k.timer k'.timer ∧ types i k.keyboard k'.keyboard ∧
      k'.ports = k.ports ++ picEoi i.number := by
  obtain ⟨mid, hhandle, hok⟩ := bind_eq_ok h
  obtain ⟨hticks, htypes, hports⟩ := handleIrq_eq hhandle
  cases hok
  exact ⟨hticks, htypes, congrArg (· ++ picEoi i.number) hports⟩

theorem chain_ticks {t t' : TimerStruct} {is : List Irq} (h : Chain ticks t is t') :
    t' = { t with tick := t.tick + BitVec.ofNat 32 (is.countP fun i => i.number = 0) } := by
  induction h with
  | nil t => simp
  | @cons t mid t' i is first rest ih =>
    rw [ih, first, List.countP_cons]
    by_cases hzero : i.number = 0
    · rw [if_pos hzero, if_pos (decide_eq_true hzero), Nat.add_comm, BitVec.ofNat_add,
        ← BitVec.add_assoc]
      rfl
    · rw [if_neg hzero, if_neg (by simpa using hzero), Nat.add_zero]

/-- The interrupts of the keyboard among others, as its driver sees them. -/
def keys (is : List Irq) : List Keyboard.Event :=
  (is.filter fun i => i.number = 1).map fun i => .key i.state i.scanCode

theorem chain_types {s s' : Keyboard.Driver} {is : List Irq} (h : Chain types s is s')
    (seen : List (Observation Byte)) :
    ∃ seen', (keys is).foldlM Keyboard.runStep (s, seen) = .ok (s', seen') := by
  induction h generalizing seen with
  | nil s => exact ⟨seen, rfl⟩
  | @cons s mid s' i is first rest ih =>
    unfold types at first
    by_cases hone : i.number = 1
    · rw [if_pos hone] at first
      obtain ⟨o, hhandler⟩ := first
      obtain ⟨seen', hrest⟩ := ih (seen ++ [o])
      refine ⟨seen', ?_⟩
      have hkeys : keys (i :: is) = .key i.state i.scanCode :: keys is := by
        simp [keys, hone]
      have hstep : Keyboard.runStep (s, seen) (.key i.state i.scanCode) =
          .ok (mid, seen ++ [o]) := by
        rw [Keyboard.runStep, Keyboard.step, hhandler, ok_bind]
      rw [hkeys, List.foldlM_cons, hstep, ok_bind, hrest]
    · rw [if_neg hone] at first
      subst first
      have hkeys : keys (i :: is) = keys is := by
        rw [keys, List.filter_cons_of_neg (by simpa using hone), keys]
      rw [hkeys]
      exact ih seen

end Handler

section Programs

/-- The accesses of the display driver that an interrupt can come between. -/
inductive Access
  | outb (port : Port) (data : Byte)
  | inb (port : Port)
  | store (index : ℕ) (cell : BitVec 16)
  | load (index : ℕ)
  | color

abbrev Access.Result : Access → Type
  | outb _ _ => Unit
  | inb _ => Byte
  | store _ _ => Unit
  | load _ => BitVec 16
  | color => Byte

def Access.exec : (a : Access) → Kernel → a.Result × Kernel
  | outb port data, k => ((), { k with display := Screen.outb k.display port data })
  | inb port, k => (Screen.inb k.display port, k)
  | store index cell, k => ((), { k with display := Screen.store k.display index cell })
  | load index, k => (k.display.screen index, k)
  | color, k => (k.display.currentColor, k)

abbrev DisplayProgram (α : Type) : Type := Program Access Access.Result α

def getCursorPosProgram : DisplayProgram (BitVec 16) :=
  (Program.op (Access.outb .cursorCommand 0xE)).bind fun _ =>
  (Program.op (Access.inb .cursorData)).bind fun (high : Byte) =>
  (Program.op (Access.outb .cursorCommand 0xF)).bind fun _ =>
  (Program.op (Access.inb .cursorData)).bind fun (low : Byte) =>
  .done (high.setWidth 16 <<< 8 ||| low.setWidth 16)

def moveCursorProgram (pos : BitVec 16) : DisplayProgram Unit :=
  (Program.op (Access.outb .cursorCommand 0xE)).bind fun _ =>
  (Program.op (Access.outb .cursorData ((pos >>> 8).setWidth 8))).bind fun _ =>
  (Program.op (Access.outb .cursorCommand 0xF)).bind fun _ =>
  Program.op (Access.outb .cursorData (pos.setWidth 8))

def displayCaracAtPosProgram (pos : BitVec 16) (carac : Byte) : DisplayProgram Unit :=
  (Program.op Access.color).bind fun (color : Byte) =>
  Program.op (Access.store pos.toNat (cell color carac))

def copyLineProgram (y : ℕ) : DisplayProgram Unit :=
  Program.each (fun x =>
    (Program.op (Access.load (y * LINE_SIZE + x))).bind fun (cell : BitVec 16) =>
    Program.op (Access.store ((y - 1) * LINE_SIZE + x) cell)) (List.range LINE_SIZE)

def scrollProgram : DisplayProgram Unit :=
  (Program.each copyLineProgram (List.range' 1 (COLUMN_SIZE - 1))).bind fun _ =>
  Program.each (fun x =>
    displayCaracAtPosProgram (BitVec.ofNat 16 (SCREEN_SIZE - LINE_SIZE + x)) 0x00)
    (List.range LINE_SIZE)

def changeCursorPosProgram (pos : BitVec 16) : DisplayProgram Unit :=
  if pos.toNat < SCREEN_SIZE - 1 then moveCursorProgram pos
  else scrollProgram.bind fun _ =>
    changeCursorPosProgram (BitVec.ofNat 16 (SCREEN_SIZE - LINE_SIZE))
termination_by if pos.toNat < SCREEN_SIZE - 1 then 0 else 1
decreasing_by
  rename_i hlow
  rw [if_neg hlow]
  decide

def displayCaracProgram (carac : Byte) : DisplayProgram Unit :=
  getCursorPosProgram.bind fun cursorPos =>
    if carac = 0xA then .done ()
    else (displayCaracAtPosProgram cursorPos carac).bind fun _ =>
      changeCursorPosProgram (cursorPos + 1)

def emitProgram : Output → DisplayProgram Unit
  | .carac carac => displayCaracProgram carac
  | .nextRow => getCursorPosProgram.bind fun newpos =>
    changeCursorPosProgram (newpos + (80 - newpos % 80))

/-- What a call of the driver displays, access by access. -/
def showProgram (output : List Output) : DisplayProgram Unit := Program.each emitProgram output

section Undisturbed

variable (k : Kernel)

/-- The kernel with another display. -/
abbrev Kernel.withDisplay (k : Kernel) (d : Display) : Kernel := { k with display := d }

theorem run_getCursorPos : getCursorPosProgram.run Access.exec k =
    ((getCursorPos k.display).1, k.withDisplay (getCursorPos k.display).2) := rfl

theorem run_moveCursor (pos : BitVec 16) : (moveCursorProgram pos).run Access.exec k =
    ((), k.withDisplay (moveCursor k.display pos)) := rfl

theorem run_displayCaracAtPos (pos : BitVec 16) (carac : Byte) :
    (displayCaracAtPosProgram pos carac).run Access.exec k =
      ((), k.withDisplay (displayCaracAtPos k.display pos carac)) := rfl

/-- A loop over accesses to the display changes nothing else. -/
theorem foldl_withDisplay {β : Type} (f : Display → β → Display) (l : List β) :
    l.foldl (fun k b => k.withDisplay (f k.display b)) k = k.withDisplay (l.foldl f k.display) := by
  induction l generalizing k with
  | nil => rfl
  | cons b rest ih => exact ih (k.withDisplay (f k.display b))

theorem run_copyLine (y : ℕ) : (copyLineProgram y).run Access.exec k =
    ((), k.withDisplay (copyLine k.display y)) := by
  unfold copyLineProgram
  rw [Program.run_each (f := fun k x => k.withDisplay (Screen.store k.display
    ((y - 1) * LINE_SIZE + x) (k.display.screen (y * LINE_SIZE + x)))) fun _ _ _ => rfl]
  exact congrArg _ (foldl_withDisplay k (fun d x => Screen.store d ((y - 1) * LINE_SIZE + x)
    (d.screen (y * LINE_SIZE + x))) (List.range LINE_SIZE))

theorem run_scroll : scrollProgram.run Access.exec k =
    ((), k.withDisplay (clearLastLine (copyLines k.display))) := by
  unfold scrollProgram
  rw [Program.run_bind,
    Program.run_each (f := fun k y => k.withDisplay (copyLine k.display y))
      fun y _ k => run_copyLine k y,
    Program.run_each (f := fun k x => k.withDisplay (displayCaracAtPos k.display
      (BitVec.ofNat 16 (SCREEN_SIZE - LINE_SIZE + x)) 0x00)) fun _ _ _ => rfl]
  refine congrArg _ ?_
  rw [foldl_withDisplay]
  exact foldl_withDisplay _ (fun d x => displayCaracAtPos d
    (BitVec.ofNat 16 (SCREEN_SIZE - LINE_SIZE + x)) 0x00) (List.range LINE_SIZE)

theorem run_changeCursorPos (pos : BitVec 16) : (changeCursorPosProgram pos).run Access.exec k =
    ((), k.withDisplay (changeCursorPos k.display pos).1) := by
  by_cases hlow : pos.toNat < SCREEN_SIZE - 1
  · rw [changeCursorPosProgram, if_pos hlow, changeCursorPos_of_lt hlow]
    rfl
  · have hline : (BitVec.ofNat 16 (SCREEN_SIZE - LINE_SIZE)).toNat < SCREEN_SIZE - 1 := by decide
    rw [changeCursorPosProgram, if_neg hlow, Program.run_bind, run_scroll, changeCursorPosProgram,
      if_pos hline, changeCursorPos, if_neg hlow, changeCursorPos_of_lt hline]
    rfl

theorem run_displayCarac (carac : Byte) : (displayCaracProgram carac).run Access.exec k =
    ((), k.withDisplay (displayCarac k.display carac)) := by
  unfold displayCaracProgram displayCarac
  rw [Program.run_bind, run_getCursorPos]
  by_cases hnewline : carac = 0xA
  · rw [if_pos hnewline]
    simp [hnewline]
  · simp only [if_neg hnewline, Program.run_bind, run_displayCaracAtPos, run_changeCursorPos]

theorem run_emit (output : Output) : (emitProgram output).run Access.exec k =
    ((), k.withDisplay (emit k.display output)) := by
  cases output with
  | carac carac => exact run_displayCarac k carac
  | nextRow =>
    unfold emitProgram
    rw [Program.run_bind, run_getCursorPos, run_changeCursorPos]
    rfl

/-- Undisturbed, the accesses do what the call was modelled to do. -/
theorem run_show (output : List Output) : (showProgram output).run Access.exec k =
    ((), k.withDisplay (shows k.display output)) := by
  unfold showProgram
  rw [Program.run_each (f := fun k o => k.withDisplay (emit k.display o)) fun o _ k => run_emit k o]
  exact congrArg _ (foldl_withDisplay k emit output)

end Undisturbed

end Programs

section Interruptions

variable {k k' : Kernel} {i : Irq} {is : List Irq}

/-- The cell graphic_state1 and graphic_state2 draw. -/
def TIMER_CELL : ℕ := 78

/-- The display but for the cell of the timer. -/
structure Flickers (d d' : Display) : Prop where
  screen : ∀ index, index ≠ TIMER_CELL → d'.screen index = d.screen index
  command : d'.command = d.command
  registers : d'.registers = d.registers

theorem Flickers.refl (d : Display) : Flickers d d := ⟨fun _ _ => rfl, rfl, rfl⟩

theorem Flickers.trans {d d' d'' : Display} (h : Flickers d d') (h' : Flickers d' d'') :
    Flickers d d'' :=
  ⟨fun index hi => (h'.screen index hi).trans (h.screen index hi), h'.command.trans h.command,
    h'.registers.trans h.registers⟩

theorem flickers_timeGraphic {d d' : Display} {tick freq : BitVec 32}
    (h : timeGraphic d tick freq = .ok d') : Flickers d d' := by
  have hstore : ∀ (d₁ : Display) (c : BitVec 16), Flickers d₁ (Screen.store d₁ TIMER_CELL c) :=
    fun d₁ c => ⟨fun index hi => Function.update_of_ne hi _ _, rfl, rfl⟩
  have hstate : ∀ state, Flickers d { d with state := state } := fun _ => ⟨fun _ _ => rfl, rfl, rfl⟩
  unfold timeGraphic at h
  split at h
  · cases h
  · split at h
    · dsimp only at h
      split at h
      · cases h
        exact (hstate _).trans (hstore _ _)
      · split at h
        · cases h
          exact (hstate _).trans (hstore _ _)
        · cases h
          exact hstate _
    · cases h
      exact .refl d

theorem flickers_handleIrq (hquiet : i.Quiet)
    (h : handleIrq k i.number i.state i.scanCode = .ok k') : Flickers k.display k'.display := by
  unfold handleIrq at h
  obtain hzero | hone | hdisk := hquiet
  · rw [if_pos hzero] at h
    obtain ⟨⟨timer, d⟩, htimer, hok⟩ := bind_eq_ok h
    obtain ⟨d', hgraphic, hret⟩ := bind_eq_ok htimer
    cases hret
    cases hok
    exact flickers_timeGraphic hgraphic
  · rw [hone, if_neg (by decide), if_pos rfl] at h
    obtain ⟨driver, seen, -, rfl⟩ := keyboardCase_eq i.state i.scanCode h
    exact .refl k.display
  · rw [hdisk, if_neg (by decide), if_neg (by decide), if_pos rfl] at h
    cases h
    exact .refl k.display

/-- An interrupt as a step of the kernel. -/
def irq (i : Irq) (k k' : Kernel) : Prop := irqHandler k i.number i.state i.scanCode = .ok k'

/-- The colour of the handler is gone when it returns, and the base colour is set. -/
theorem flickers_irq (hquiet : i.Quiet) (h : irq i k k') :
    Flickers k.display k'.display ∧ k'.display.currentColor = BASE_COLOR := by
  obtain ⟨mid, hhandle, hok⟩ := bind_eq_ok h
  obtain ⟨hscreen, hcommand, hregisters⟩ := flickers_handleIrq hquiet hhandle
  cases hok
  exact ⟨⟨hscreen, hcommand, hregisters⟩, rfl⟩

/-- Displays that a program in the base colour cannot tell apart if it does not look at the
cell of the timer. -/
structure Alike (k k' : Kernel) : Prop where
  flickers : Flickers k'.display k.display
  color : k.display.currentColor = BASE_COLOR
  color' : k'.display.currentColor = BASE_COLOR

/-- An access that does not look at the cell of the timer; only a scroll looks at cells. -/
def Access.Avoids : Access → Prop
  | load index => index ≠ TIMER_CELL
  | _ => True

theorem Flickers.store {d d' : Display} (h : Flickers d d') (index : ℕ) (cell : BitVec 16) :
    Flickers (Screen.store d index cell) (Screen.store d' index cell) := by
  refine ⟨fun i hi => ?_, h.command, h.registers⟩
  by_cases hindex : i = index
  · rw [hindex]
    simp only [Screen.store, Function.update_self]
  · exact (Function.update_of_ne hindex _ _).trans
      ((h.screen i hi).trans (Function.update_of_ne hindex _ _).symm)

theorem Flickers.outb {d d' : Display} (h : Flickers d d') (port : Port) (data : Byte) :
    Flickers (Screen.outb d port data) (Screen.outb d' port data) := by
  cases port with
  | cursorCommand => exact ⟨h.screen, rfl, h.registers⟩
  | cursorData =>
    refine ⟨h.screen, h.command, ?_⟩
    simp only [Screen.outb, h.command, h.registers]

theorem Flickers.inb {d d' : Display} (h : Flickers d d') (port : Port) :
    Screen.inb d' port = Screen.inb d port := by
  cases port with
  | cursorCommand => exact h.command
  | cursorData => simp only [Screen.inb, h.command, h.registers]

/-- No access but one to the cell of the timer sees a quiet interrupt. -/
theorem invisible_irq :
    Invisible Access.exec (fun i k k' => i.Quiet ∧ irq i k k') Access.Avoids Alike := by
  constructor
  case interrupt =>
    rintro i k k' t ⟨hflickers, -, hcolor'⟩ ⟨hquiet, hirq⟩
    obtain ⟨hchange, hcolor⟩ := flickers_irq hquiet hirq
    exact ⟨hflickers.trans hchange, hcolor, hcolor'⟩
  case result =>
    rintro a k t havoids ⟨hflickers, hcolor, hcolor'⟩
    cases a with
    | outb port data => rfl
    | inb port => exact hflickers.inb port
    | store index cell => rfl
    | load index => exact hflickers.screen index havoids
    | color => exact hcolor.trans hcolor'.symm
  case perform =>
    rintro a k t - ⟨hflickers, hcolor, hcolor'⟩
    cases a with
    | outb port data =>
      refine ⟨hflickers.outb port data, ?_, ?_⟩
      · cases port <;> exact hcolor
      · cases port <;> exact hcolor'
    | store index cell => exact ⟨hflickers.store index cell, hcolor, hcolor'⟩
    | _ => exact ⟨hflickers, hcolor, hcolor'⟩

theorem uses_getCursorPos : getCursorPosProgram.Uses Access.Avoids :=
  ⟨trivial, fun _ => ⟨trivial, fun _ => ⟨trivial, fun _ => ⟨trivial, fun _ => trivial⟩⟩⟩⟩

theorem uses_moveCursor (pos : BitVec 16) : (moveCursorProgram pos).Uses Access.Avoids :=
  ⟨trivial, fun _ => ⟨trivial, fun _ => ⟨trivial, fun _ => ⟨trivial, fun _ => trivial⟩⟩⟩⟩

theorem uses_displayCaracAtPos (pos : BitVec 16) (carac : Byte) :
    (displayCaracAtPosProgram pos carac).Uses Access.Avoids :=
  ⟨trivial, fun _ => ⟨trivial, fun _ => trivial⟩⟩

/-- The rows that are copied start below the first one, where the timer draws. -/
theorem uses_scroll : scrollProgram.Uses Access.Avoids := by
  have hcopies : (Program.each copyLineProgram (List.range' 1 (COLUMN_SIZE - 1))).Uses
      Access.Avoids := by
    refine .each fun y hy => .each fun x _ => ⟨?_, fun _ => ⟨trivial, fun _ => trivial⟩⟩
    have hrow := (List.mem_range'_1.mp hy).1
    change y * 80 + x ≠ 78
    omega
  exact hcopies.bind fun _ => .each fun x _ => uses_displayCaracAtPos _ _

theorem uses_changeCursorPos (pos : BitVec 16) :
    (changeCursorPosProgram pos).Uses Access.Avoids := by
  by_cases hlow : pos.toNat < SCREEN_SIZE - 1
  · rw [changeCursorPosProgram, if_pos hlow]
    exact uses_moveCursor pos
  · have hline : (BitVec.ofNat 16 (SCREEN_SIZE - LINE_SIZE)).toNat < SCREEN_SIZE - 1 := by decide
    rw [changeCursorPosProgram, if_neg hlow, changeCursorPosProgram, if_pos hline]
    exact uses_scroll.bind fun _ => uses_moveCursor _

theorem uses_show (output : List Output) : (showProgram output).Uses Access.Avoids := by
  refine .each fun o _ => ?_
  cases o with
  | carac carac =>
    refine uses_getCursorPos.bind fun cursorPos => ?_
    split
    · trivial
    · exact (uses_displayCaracAtPos _ _).bind fun _ => uses_changeCursorPos _
  | nextRow => exact uses_getCursorPos.bind fun newpos => uses_changeCursorPos _

/-- Formatted output, access by access. -/
def printfProgram (fmt : Text) (args : List Arg) : Except Fault (DisplayProgram Unit) :=
  (printfOutput fmt args).map showProgram

/-- Whatever printf displays in the base colour, and wherever the timer, the keyboard and
the disk interrupt it: the screen but for the cell of the timer, the cursor and the colour
are at its end as if nothing had interrupted it. -/
theorem printf_interrupted {fmt : Text} {args : List Arg} {d : Display} {k : Kernel}
    (hcolor : k.display.currentColor = BASE_COLOR) (hprintf : printf k.display fmt args = .ok d) :
    ∃ p, printfProgram fmt args = .ok p ∧
      ∀ is r, (∀ i ∈ is, i.Quiet) → Interrupted Access.exec irq p k is r →
        Flickers d r.2.display ∧ r.2.display.currentColor = BASE_COLOR := by
  rw [printf_shows] at hprintf
  unfold printfProgram
  cases houtput : printfOutput fmt args with
  | error e =>
    rw [houtput] at hprintf
    cases hprintf
  | ok output =>
    rw [houtput] at hprintf
    cases hprintf
    refine ⟨showProgram output, rfl, fun is r hquiet hrun => ?_⟩
    have halike := ((hrun.restrict hquiet).alike invisible_irq (uses_show output)
      ⟨.refl k.display, hcolor, hcolor⟩).2
    rw [run_show] at halike
    exact ⟨halike.flickers, halike.color⟩

/-- The kernel before the first interrupt of a timer of 1 Hz. -/
def exampleKernel : Kernel where
  display :=
    { screen := fun _ => 0
      written := []
      command := 0
      registers := fun _ => 0
      currentColor := BASE_COLOR
      state := 1 }
  timer := ⟨0, 1, 20000⟩
  keyboard := Keyboard.zeroDriver
  ports := []

theorem irqHandler_example : ∃ k, irq ⟨0, 0, 0⟩ exampleKernel k := ⟨_, rfl⟩

/-- The timer interrupts the display of an A. -/
theorem printf_interrupted_tick : ∃ p r,
    printfProgram ⟨[0x41], by decide⟩ [] = .ok p ∧
    Interrupted Access.exec irq p exampleKernel [⟨0, 0, 0⟩] r ∧
    Flickers (displayCarac exampleKernel.display 0x41) r.2.display ∧
    r.2.display.currentColor = BASE_COLOR := by
  have hprintf : printf exampleKernel.display ⟨[0x41], by decide⟩ [] =
      .ok (displayCarac exampleKernel.display 0x41) := rfl
  obtain ⟨p, hp, hend⟩ := printf_interrupted (k := exampleKernel) rfl hprintf
  obtain ⟨k, hk⟩ := irqHandler_example
  have hrun : Interrupted Access.exec irq p exampleKernel [⟨0, 0, 0⟩] (p.run Access.exec k) :=
    .of_chain (.cons hk (.nil k))
  refine ⟨p, _, hp, hrun, hend _ _ ?_ hrun⟩
  intro i hi
  rw [List.mem_singleton.mp hi]
  exact .inl rfl

theorem ports_chain {w w' : List PortWrite}
    (h : Chain (fun (i : Irq) w w' => w' = w ++ picEoi i.number) w is w') :
    w' = w ++ is.flatMap fun i => picEoi i.number := by
  induction h with
  | nil w => simp
  | cons first rest ih => rw [ih, first, List.flatMap_cons, List.append_assoc]

/-- Whatever the display driver is in the middle of, and whichever devices interrupt it:
each interrupt of the timer is counted, the keyboard driver has seen its keys in their order
and nothing else, and each interrupt was acknowledged once. -/
theorem devices_interrupted {α : Type} {p : DisplayProgram α} {r : α × Kernel}
    (hrun : Interrupted Access.exec irq p k is r) :
    r.2.timer = { k.timer with
      tick := k.timer.tick + BitVec.ofNat 32 (is.countP fun i => i.number = 0) } ∧
    (∃ seen, Keyboard.run k.keyboard (keys is) = .ok (r.2.keyboard, seen)) ∧
    r.2.ports = k.ports ++ is.flatMap fun i => picEoi i.number := by
  refine ⟨?_, ?_, ?_⟩
  · refine chain_ticks (hrun.chain Kernel.timer ?_ fun i k k' h => (irqHandler_eq h).1)
    intro a k
    cases a <;> rfl
  · refine chain_types (hrun.chain Kernel.keyboard ?_ fun i k k' h => (irqHandler_eq h).2.1) []
    intro a k
    cases a <;> rfl
  · refine ports_chain (hrun.chain Kernel.ports ?_ fun i k k' h => (irqHandler_eq h).2.2)
    intro a k
    cases a <;> rfl

theorem devices_interrupted_tick : ∃ r,
    Interrupted Access.exec irq (moveCursorProgram 80) exampleKernel [⟨0, 0, 0⟩] r ∧
    r.2.timer = ⟨1, 1, 20000⟩ ∧ r.2.ports = [⟨PIC1_CMD, PIC_EOI⟩] := by
  obtain ⟨k, hk⟩ := irqHandler_example
  have hrun : Interrupted Access.exec irq (moveCursorProgram 80) exampleKernel [⟨0, 0, 0⟩]
      ((moveCursorProgram 80).run Access.exec k) := .of_chain (.cons hk (.nil k))
  obtain ⟨htimer, -, hports⟩ := devices_interrupted hrun
  exact ⟨_, hrun, htimer, hports⟩

end Interruptions

end RathalOS.InterruptHandling
