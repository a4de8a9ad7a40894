import RathalOS.InterruptControllers
import RathalOS.InterruptTable
import RathalOS.Timer

/-!
Interrupts of the devices from a line of the controllers to irq_handler and back:
kernel/drivers/pic.c with the table and the stubs. pic_init leaves the two controllers as
the table expects them, each line reaches the handler under its own number, and pic_eoi
ends just that interrupt, so that no line is ever blocked by one served before.
-/
namespace RathalOS.InterruptDelivery

open ByteMemory MemoryStacks InterruptStubs InterruptTable InterruptControllers Timer

def PIC1_CMD : BitVec 16 := 0x20
def PIC1_DATA : BitVec 16 := 0x21
def PIC2_CMD : BitVec 16 := 0xA0
def PIC2_DATA : BitVec 16 := 0xA1
def PIC_EOI : Byte := 0x20

/-- `pic_init`, by its calls of outb. -/
def picInit : List PortWrite :=
  [⟨PIC1_CMD, 0x11⟩, ⟨PIC2_CMD, 0x11⟩, ⟨PIC1_DATA, 32⟩, ⟨PIC2_DATA, 40⟩, ⟨PIC1_DATA, 0x04⟩,
    ⟨PIC2_DATA, 0x02⟩, ⟨PIC1_DATA, 0x01⟩, ⟨PIC2_DATA, 0x01⟩]

/-- `pic_eoi`, which takes an int. -/
def picEoi (irq : BitVec 32) : List PortWrite :=
  if 7 < irq.toInt then [⟨PIC2_CMD, PIC_EOI⟩, ⟨PIC1_CMD, PIC_EOI⟩] else [⟨PIC1_CMD, PIC_EOI⟩]

/-- The two controllers of the machine. The second is wired to line 2 of the first. -/
structure Controllers where
  master : Controller
  slave : Controller

def Controllers.outb (c : Controllers) (write : PortWrite) : Controllers :=
  if write.port = PIC1_CMD then { c with master := c.master.writeCommand write.data }
  else if write.port = PIC1_DATA then { c with master := c.master.writeData write.data }
  else if write.port = PIC2_CMD then { c with slave := c.slave.writeCommand write.data }
  else if write.port = PIC2_DATA then { c with slave := c.slave.writeData write.data }
  else c

def Controllers.writes (c : Controllers) (ws : List PortWrite) : Controllers :=
  ws.foldl Controllers.outb c

def cascadeLine : Line := ⟨2, by decide⟩

/-- A device raises its line: the vector the processor gets, if the line is passed on. The
first controller leaves the vector to the second only if both were told how they are wired. -/
def Controllers.request (c : Controllers) (irq : Fin 16) : Option (BitVec 8 × Controllers) :=
  if h : irq.val < 8 then
    let line : Line := ⟨irq.val, h⟩
    if line ≠ cascadeLine ∧ c.master.Accepts line then
      some (c.master.vector line, { c with master := c.master.acknowledge line })
    else none
  else
    let line : Line := ⟨irq.val - 8, by omega⟩
    if c.master.cascade.getLsbD 2 = true ∧ c.slave.cascade = 2 ∧ c.slave.Accepts line ∧
        c.master.Accepts cascadeLine then
      some (c.slave.vector line,
        { master := c.master.acknowledge cascadeLine
          slave := c.slave.acknowledge line })
    else none

section Controllers

variable {c c' : Controllers} {irq : Fin 16} {vector : BitVec 8}

theorem writeCommand_eoi (c : Controller) : c.writeCommand PIC_EOI = c.endOfInterrupt := by
  unfold Controller.writeCommand
  rw [if_neg (by decide), if_pos (by decide)]

theorem writes_picEoi_low (h : irq.val < 8) :
    c.writes (picEoi (BitVec.ofNat 32 irq)) = { c with master := c.master.endOfInterrupt } := by
  have hint : ¬ 7 < (BitVec.ofNat 32 irq).toInt := by
    revert irq
    decide
  rw [picEoi, if_neg hint]
  change { c with master := c.master.writeCommand PIC_EOI } = _
  rw [writeCommand_eoi]

theorem writes_picEoi_high (h : ¬ irq.val < 8) :
    c.writes (picEoi (BitVec.ofNat 32 irq)) =
      { master := c.master.endOfInterrupt, slave := c.slave.endOfInterrupt } := by
  have hint : 7 < (BitVec.ofNat 32 irq).toInt := by
    revert irq
    decide
  rw [picEoi, if_pos hint]
  change (⟨c.master.writeCommand PIC_EOI, c.slave.writeCommand PIC_EOI⟩ : Controllers) = _
  rw [writeCommand_eoi, writeCommand_eoi]

/-- Whatever is in service already, pic_eoi ends the interrupt it is called for. -/
theorem writes_picEoi (h : c.request irq = some (vector, c')) :
    c'.writes (picEoi (BitVec.ofNat 32 irq)) = c := by
  unfold Controllers.request at h
  split at h
  · rename_i hlow
    dsimp only at h
    split at h
    · rename_i haccepts
      cases h
      rw [writes_picEoi_low hlow, Controller.endOfInterrupt_acknowledge haccepts.2]
    · cases h
  · rename_i hhigh
    dsimp only at h
    split at h
    · rename_i haccepts
      cases h
      rw [writes_picEoi_high hhigh, Controller.endOfInterrupt_acknowledge haccepts.2.2.1,
        Controller.endOfInterrupt_acknowledge haccepts.2.2.2]
    · cases h

/-- The controllers after pic_init. -/
def initialised : Controllers where
  master :=
    { phase := .ready
      single := false
      wantsMode := true
      vectorBase := 32
      cascade := 4
      mode := 1
      mask := fun _ => false
      inService := fun _ => false }
  slave :=
    { phase := .ready
      single := false
      wantsMode := true
      vectorBase := 40
      cascade := 2
      mode := 1
      mask := fun _ => false
      inService := fun _ => false }

/-- Nothing the controllers were set to before is left. -/
theorem writes_picInit (c : Controllers) : c.writes picInit = initialised := rfl

/-- Every line but the one between the controllers has the vector of its entry in the table. -/
theorem request_initialised (h : irq.val ≠ 2) :
    ∃ c', initialised.request irq = some (BitVec.ofNat 8 (32 + irq), c') := by
  have hvector : (initialised.request irq).map Prod.fst = some (BitVec.ofNat 8 (32 + irq)) := by
    revert irq
    decide
  obtain ⟨⟨vector, c'⟩, hrequest, hfst⟩ := Option.map_eq_some_iff.mp hvector
  cases hfst
  exact ⟨c', hrequest⟩

end Controllers

/-- The processor, the code and the table it runs with. -/
structure Setup where
  upper : Word → BitVec 16
  addresses : Addresses
  idt : Table
  code : Word → List (Instr CpuRegisters)
  irqHandler : Cpu → Cpu

/-- The code at the address of each stub of an interrupt is that stub. -/
def Setup.Loaded (setup : Setup) : Prop :=
  ∀ n : Fin 16, setup.code (setup.addresses.irq n) = irqStub n

/-- A device raises its line while the processor is in some state, with the stack of the
kernel that its task has. -/
structure Interruption where
  irq : Fin 16
  tss : TssStack
  cpu : Cpu

/-- An interrupt from its line to the end of iret: the number irq_handler reads from the
structure it is passed, for which it calls pic_eoi, and the state that is resumed. -/
def serve (setup : Setup) (c : Controllers) (i : Interruption) :
    Option (Word × Cpu × Controllers) := do
  let (vector, c) ← c.request i.irq
  let (gate, _) ← decode (setup.idt vector)
  let stub := setup.code gate.offset
  let e := atHandler setup.upper i.tss gate none stub i.cpu
  let number := (regsAt e.mem (loadWord e.mem e.sp)).number
  let after ← serviceInterrupt setup.upper i.tss gate none stub setup.irqHandler i.cpu
  some (number, after, c.writes (picEoi number))

def run (setup : Setup) (c : Controllers) :
    List Interruption → Option (List (Word × Cpu) × Controllers)
  | [] => some ([], c)
  | i :: rest => do
    let (number, after, c) ← serve setup c i
    let (served, c) ← run setup c rest
    some ((number, after) :: served, c)

section Delivery

variable {setup : Setup}

/-- The state in which irq_handler is called, if every line goes to its own stub. -/
def called (setup : Setup) (i : Interruption) : Cpu :=
  atHandler setup.upper i.tss ⟨setup.addresses.irq i.irq, GDT_KERNEL_CODE_SELECTOR, true⟩ none
    (irqStub i.irq) i.cpu

/-- The interrupted state, with what irq_handler made of the memory. -/
def resumed (setup : Setup) (i : Interruption) : Cpu :=
  { i.cpu with mem := (setup.irqHandler (called setup i)).mem }

theorem serve_initialised (hloaded : setup.Loaded) {uninitialised : BitVec 8 → BitVec 64}
    {idt : Table} (hidt : setup.idt = idtInit setup.addresses uninitialised idt) {i : Interruption}
    (hline : i.irq.val ≠ 2)
    (hreturns : Returns 1 (savedWords i.cpu) (called setup i) (setup.irqHandler (called setup i))) :
    serve setup initialised i = some (BitVec.ofNat 32 i.irq, resumed setup i, initialised) := by
  obtain ⟨c', hrequest⟩ := request_initialised hline
  have hbound := i.irq.isLt
  have hvector : (BitVec.ofNat 8 (32 + i.irq)).toNat = 32 + i.irq := by
    rw [BitVec.toNat_ofNat, Nat.mod_eq_of_lt (by omega)]
  have hdecode := idtInit_irq setup.addresses uninitialised idt i.irq hvector
  have hlevel : privilege GDT_KERNEL_CODE_SELECTOR = 0 := by decide
  have hnumber := (atHandler_shows setup.upper i.tss
    ⟨setup.addresses.irq i.irq, GDT_KERNEL_CODE_SELECTOR, true⟩ (numbers_irqStub i.irq)
    i.cpu).number
  have hservice := serviceInterrupt_resumes setup.upper i.tss
    ⟨setup.addresses.irq i.irq, GDT_KERNEL_CODE_SELECTOR, true⟩ hlevel (numbers_irqStub i.irq)
    setup.irqHandler i.cpu hreturns
  unfold serve
  rw [hrequest]
  simp only [Option.bind_eq_bind, Option.bind_some, hidt, hdecode, hloaded i.irq, hservice, hnumber]
  rw [writes_picEoi hrequest]
  rfl

/-- From pic_init and idt_init on, whichever lines are raised and whatever they interrupt,
irq_handler is called once for each with the number of its line, what was interrupted goes
on, and the controllers are ready for the next. -/
theorem run_initialised (hloaded : setup.Loaded) {uninitialised : BitVec 8 → BitVec 64}
    {idt : Table} (hidt : setup.idt = idtInit setup.addresses uninitialised idt) (c : Controllers)
    (interruptions : List Interruption) (hlines : ∀ i ∈ interruptions, i.irq.val ≠ 2)
    (hreturns : ∀ i ∈ interruptions,
      Returns 1 (savedWords i.cpu) (called setup i) (setup.irqHandler (called setup i))) :
    run setup (c.writes picInit) interruptions =
      some (interruptions.map fun i => (BitVec.ofNat 32 i.irq, resumed setup i), initialised) := by
  rw [writes_picInit]
  induction interruptions with
  | nil => rfl
  | cons i rest ih =>
    have hserve := serve_initialised hloaded hidt (hlines i List.mem_cons_self)
      (hreturns i List.mem_cons_self)
    have hrest := ih (fun j hj => hlines j (List.mem_cons_of_mem i hj))
      (fun j hj => hreturns j (List.mem_cons_of_mem i hj))
    simp only [run, hserve, hrest, Option.bind_eq_bind, Option.bind_some, List.map_cons]

end Delivery

section Examples

/-- The stubs one after the other, sixteen bytes apart. -/
def exampleSetup : Setup where
  upper := fun _ => 0
  addresses :=
    { exception := fun n => 0x102000 + 16 * BitVec.ofNat 32 n
      irq := fun n => 0x101000 + 16 * BitVec.ofNat 32 n
      syscallHandler := 0x103000 }
  idt := idtInit
    { exception := fun n => 0x102000 + 16 * BitVec.ofNat 32 n
      irq := fun n => 0x101000 + 16 * BitVec.ofNat 32 n
      syscallHandler := 0x103000 } (fun _ => 0) fun _ => 0xffff
  code := fun a => irqStub ((a - 0x101000).toNat / 16)
  irqHandler := exampleHandler

theorem exampleSetup_loaded : exampleSetup.Loaded := by
  intro n
  have hindex : (0x101000 + 16 * BitVec.ofNat 32 n - 0x101000).toNat / 16 = n := by
    revert n
    decide
  exact congrArg irqStub hindex

/-- The disk interrupts a program. -/
def exampleInterruption : Interruption where
  irq := ⟨14, by decide⟩
  tss := ⟨0x300000, 0x10⟩
  cpu := exampleProgram

/-- Controllers that are initialised for a second time. -/
theorem run_initialised_disk :
    run exampleSetup (initialised.writes picInit) [exampleInterruption] =
      some ([(14, resumed exampleSetup exampleInterruption)], initialised) := by
  have hreturns : Returns 1 (savedWords exampleProgram) (called exampleSetup exampleInterruption)
      (exampleHandler (called exampleSetup exampleInterruption)) := by
    refine ⟨rfl, rfl, rfl, rfl, by decide, fun k hk => Function.update_of_ne ?_ _ _⟩
    change _ < 72 at hk
    change (0x300000 - 76 : Word) + BitVec.ofNat 32 (4 * 1 + k) ≠ 0x200000
    bv_omega
  have hidt : exampleSetup.idt =
      idtInit exampleSetup.addresses (fun _ => 0) (fun _ => 0xffff) := rfl
  have hlines : ∀ i ∈ [exampleInterruption], i.irq.val ≠ 2 := by
    intro i hi
    rw [List.mem_singleton.mp hi]
    decide
  rw [run_initialised exampleSetup_loaded hidt initialised [exampleInterruption] hlines
    fun i hi => by
    rw [List.mem_singleton.mp hi]
    exact hreturns]
  rfl

end Examples

end RathalOS.InterruptDelivery
