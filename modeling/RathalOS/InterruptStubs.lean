import RathalOS.MemoryStacks

/-!
The interrupt stubs, kernel/idt/idt_asm.s: what the processor pushes, what a stub and
the wrapper push on top of it, and what is left of that when the wrapper returns. The
handler finds the number and the interrupted registers in the structure it is passed,
and the interrupted program goes on with all of its registers, whichever privilege it
had. The body of the handler is any function that keeps to the calling convention.
-/
namespace RathalOS.InterruptStubs

open ByteMemory MemoryStacks

abbrev Selector := BitVec 16

def GDT_KERNEL_DATA_SELECTOR : Selector := 0x10

/-- The registers of the processor, less the stack pointer. -/
structure CpuRegisters where
  gs : Selector
  fs : Selector
  es : Selector
  ds : Selector
  ebp : Word
  edi : Word
  esi : Word
  edx : Word
  ecx : Word
  ebx : Word
  eax : Word
  eip : Word
  cs : Selector
  eflags : Word
  ss : Selector
  tr : Selector

/-- The interrupt flag, the flags a gate clears besides (TF, NT, RF and VM), and NT alone. -/
def FLAG_IF : Word := 0x200
def FLAGS_GATE : Word := 0x34100
def FLAG_NT : Word := 0x4000

/-- The privilege level is in the low bits of the code segment's selector. -/
def privilege (cs : Selector) : BitVec 2 := cs.setWidth 2

abbrev Cpu := Machine CpuRegisters

/-- A selector in a slot of the stack. The processor leaves the upper half to itself: it
may clear it or keep what was there. -/
def slot (upper : Word → BitVec 16) (a : Word) (s : Selector) : Word := upper a ++ s

def lowHalf (v : Word) : Selector := v.setWidth 16

@[simp] theorem lowHalf_slot (upper : Word → BitVec 16) (a : Word) (s : Selector) :
    lowHalf (slot upper a s) = s := by
  unfold lowHalf slot
  exact BitVec.setWidth_append_eq_right

section Processor

variable (upper : Word → BitVec 16)

/-- The stack the processor changes to when it enters the kernel from a program. -/
structure TssStack where
  esp0 : Word
  ss0 : Selector

/-- What the processor makes of an entry of the IDT. -/
structure Gate where
  offset : Word
  selector : Selector
  interrupt : Bool

/-- An interrupt of the program changes the stack, one of the kernel does not. -/
def changeStack (tss : TssStack) (m : Cpu) : Cpu :=
  if privilege m.file.cs = 0 then m
  else
    ({ m with
      file := { m.file with ss := tss.ss0 }
      sp := tss.esp0 } : Cpu).run
      [.push fun a _ => slot upper a m.file.ss, .push fun _ _ => m.sp]

/-- What the processor pushes on either stack; some exceptions add an error code. -/
def pushContext (error : Option Word) : List (Instr CpuRegisters) :=
  [.push fun _ r => r.eflags, .push fun a r => slot upper a r.cs, .push fun _ r => r.eip] ++
    error.toList.map fun code => .push fun _ _ => code

def enterGate (gate : Gate) : Instr CpuRegisters := .mov fun _ r =>
  { r with
    eip := gate.offset
    cs := gate.selector
    eflags := r.eflags &&& ~~~(if gate.interrupt then FLAGS_GATE ||| FLAG_IF else FLAGS_GATE) }

/-- The processor takes an interrupt or an exception through a gate. -/
def deliver (tss : TssStack) (gate : Gate) (error : Option Word) (m : Cpu) : Cpu :=
  (changeStack upper tss m).run (pushContext upper error ++ [enterGate gate])

/-- The instruction iret. With the flag NT it returns from a task, which is not modelled. -/
def iret (m : Cpu) : Option Cpu :=
  if m.file.eflags &&& FLAG_NT ≠ 0 then none
  else
    let returned := m.run [.pop fun v r => { r with eip := v },
      .pop fun v r => { r with cs := lowHalf v }, .pop fun v r => { r with eflags := v }]
    if privilege returned.file.cs = privilege m.file.cs then some returned
    else if privilege m.file.cs < privilege returned.file.cs then
      some (returned.run [.load (fun _ => returned.sp + 4) fun v r => { r with ss := lowHalf v },
        .setSp fun _ => loadWord returned.mem returned.sp])
    else none

end Processor

section Stubs

variable (upper : Word → BitVec 16)

def cli : Instr CpuRegisters := .mov fun _ r => { r with eflags := r.eflags &&& ~~~FLAG_IF }

/-- The exceptions with which the processor pushes an error code. -/
def pushesErrorCode (number : ℕ) : Bool := number ∈ [8, 10, 11, 12, 13, 14, 17]

/-- `_exception0` to `_exception20`, up to the jump. -/
def exceptionStub (number : ℕ) : List (Instr CpuRegisters) :=
  if pushesErrorCode number then [cli, .push fun _ _ => BitVec.ofNat 32 number]
  else [cli, .push fun _ _ => 0, .push fun _ _ => BitVec.ofNat 32 number]

/-- `_IRQexception0` to `_IRQexception15`, up to the jump. -/
def irqStub (number : ℕ) : List (Instr CpuRegisters) :=
  [cli, .push fun _ _ => 0, .push fun _ _ => BitVec.ofNat 32 number]

def pushAll : List (Instr CpuRegisters) :=
  [.push fun _ r => r.eax, .push fun _ r => r.ebx, .push fun _ r => r.ecx,
    .push fun _ r => r.edx, .push fun _ r => r.esi, .push fun _ r => r.edi,
    .push fun _ r => r.ebp, .push fun a r => slot upper a r.ds,
    .push fun a r => slot upper a r.es, .push fun a r => slot upper a r.fs,
    .push fun a r => slot upper a r.gs]

/-- Load the kernel data descriptor into all segments, through ax. -/
def loadKernelSegments : List (Instr CpuRegisters) :=
  [.mov fun _ r => { r with eax := (r.eax &&& 0xffff0000) ||| 0x10 },
    .mov fun _ r => { r with ds := lowHalf r.eax }, .mov fun _ r => { r with es := lowHalf r.eax },
    .mov fun _ r => { r with fs := lowHalf r.eax }, .mov fun _ r => { r with gs := lowHalf r.eax }]

/-- `exception_wrapper` and `irq_wrapper` up to the call, in which only the handler's name
differs. -/
def wrapperEntry : List (Instr CpuRegisters) :=
  pushAll upper ++ loadKernelSegments ++
    [.mov fun sp r => { r with eax := sp }, .push fun _ r => r.eax]

/-- The wrapper after the call, up to iret. -/
def wrapperExit : List (Instr CpuRegisters) :=
  [.pop fun v r => { r with eax := v }, .pop fun v r => { r with gs := lowHalf v },
    .pop fun v r => { r with fs := lowHalf v }, .pop fun v r => { r with es := lowHalf v },
    .pop fun v r => { r with ds := lowHalf v }, .pop fun v r => { r with ebp := v },
    .pop fun v r => { r with edi := v }, .pop fun v r => { r with esi := v },
    .pop fun v r => { r with edx := v }, .pop fun v r => { r with ecx := v },
    .pop fun v r => { r with ebx := v }, .pop fun v r => { r with eax := v }, .release 2]

/-- The state in which the handler is called. -/
def atHandler (tss : TssStack) (gate : Gate) (error : Option Word)
    (stub : List (Instr CpuRegisters)) (m : Cpu) : Cpu :=
  (deliver upper tss gate error m).run (stub ++ wrapperEntry upper)

/-- An interrupt from its delivery to the end of iret. -/
def serviceInterrupt (tss : TssStack) (gate : Gate) (error : Option Word)
    (stub : List (Instr CpuRegisters)) (handler : Cpu → Cpu) (m : Cpu) : Option Cpu :=
  iret ((handler (atHandler upper tss gate error stub m)).run wrapperExit)

end Stubs

/-- `regs_t`. -/
structure RegsT where
  gs : Word
  fs : Word
  es : Word
  ds : Word
  ebp : Word
  edi : Word
  esi : Word
  edx : Word
  ecx : Word
  ebx : Word
  eax : Word
  number : Word
  errorCode : Word
  eip : Word
  cs : Word
  eflags : Word
  esp : Word
  ss : Word

/-- The structure at an address. -/
def regsAt (mem : Word → Byte) (p : Word) : RegsT where
  gs := loadWord mem (p + 0)
  fs := loadWord mem (p + 4)
  es := loadWord mem (p + 8)
  ds := loadWord mem (p + 12)
  ebp := loadWord mem (p + 16)
  edi := loadWord mem (p + 20)
  esi := loadWord mem (p + 24)
  edx := loadWord mem (p + 28)
  ecx := loadWord mem (p + 32)
  ebx := loadWord mem (p + 36)
  eax := loadWord mem (p + 40)
  number := loadWord mem (p + 44)
  errorCode := loadWord mem (p + 48)
  eip := loadWord mem (p + 52)
  cs := loadWord mem (p + 56)
  eflags := loadWord mem (p + 60)
  esp := loadWord mem (p + 64)
  ss := loadWord mem (p + 68)

/-- The fields are a number, an error code and these registers. -/
structure RegsT.Describes (regs : RegsT) (number error : Word) (r : CpuRegisters) : Prop where
  gs : lowHalf regs.gs = r.gs
  fs : lowHalf regs.fs = r.fs
  es : lowHalf regs.es = r.es
  ds : lowHalf regs.ds = r.ds
  ebp : regs.ebp = r.ebp
  edi : regs.edi = r.edi
  esi : regs.esi = r.esi
  edx : regs.edx = r.edx
  ecx : regs.ecx = r.ecx
  ebx : regs.ebx = r.ebx
  eax : regs.eax = r.eax
  number : regs.number = number
  errorCode : regs.errorCode = error
  eip : regs.eip = r.eip
  cs : lowHalf regs.cs = r.cs
  eflags : regs.eflags = r.eflags

/-- The structure shows an interrupt in this state. Its last two fields belong to it only
where the processor changed the stack. -/
structure RegsT.Shows (regs : RegsT) (number error : Word) (m : Cpu) : Prop
    extends regs.Describes number error m.file where
  esp : privilege m.file.cs ≠ 0 → regs.esp = m.sp
  ss : privilege m.file.cs ≠ 0 → lowHalf regs.ss = m.file.ss

theorem RegsT.Describes.shows {regs : RegsT} {number code : Word} {r : CpuRegisters} {m : Cpu}
    (h : regs.Describes number code r) (hr : r = { m.file with ss := r.ss })
    (hesp : privilege m.file.cs ≠ 0 → regs.esp = m.sp)
    (hss : privilege m.file.cs ≠ 0 → lowHalf regs.ss = m.file.ss) :
    regs.Shows number code m := by
  rw [hr] at h
  exact ⟨⟨h.gs, h.fs, h.es, h.ds, h.ebp, h.edi, h.esi, h.edx, h.ecx, h.ebx, h.eax, h.number,
    h.errorCode, h.eip, h.cs, h.eflags⟩, hesp, hss⟩

/-- What a C function called with some words on the stack keeps: the stack pointer and the
words above its arguments, and what no function of the kernel changes. -/
structure Returns (args saved : ℕ) (before after : Cpu) : Prop where
  sp : after.sp = before.sp
  cs : after.file.cs = before.file.cs
  ss : after.file.ss = before.file.ss
  tr : after.file.tr = before.file.tr
  nested : after.file.eflags &&& FLAG_NT = 0
  saved : ∀ k < 4 * saved, after.mem (before.sp + BitVec.ofNat 32 (4 * args + k)) =
    before.mem (before.sp + BitVec.ofNat 32 (4 * args + k))

/-- What is held above the arguments is held there still. -/
theorem Returns.holds {args saved : ℕ} {before after : Cpu} (h : Returns args saved before after)
    {vs : List Word} (hvs : Holds before.mem (before.sp + BitVec.ofNat 32 (4 * args)) vs)
    (hlen : vs.length ≤ saved) :
    Holds after.mem (after.sp + BitVec.ofNat 32 (4 * args)) vs := by
  refine hvs.congr fun k hk => ?_
  rw [h.sp, BitVec.add_assoc, ← BitVec.ofNat_add]
  exact h.saved k (by omega)

/-- The words of the structure that are there for every interrupt, in the order of the
fields. -/
def RegsT.context (regs : RegsT) : List Word :=
  [regs.gs, regs.fs, regs.es, regs.ds, regs.ebp, regs.edi, regs.esi, regs.edx, regs.ecx,
    regs.ebx, regs.eax, regs.number, regs.errorCode, regs.eip, regs.cs, regs.eflags]

theorem regsAt_eq {mem : Word → Byte} {p : Word} {regs : RegsT}
    (h : Holds mem p (regs.context ++ [regs.esp, regs.ss])) : regsAt mem p = regs := by
  have hget : ∀ i (v : Word), (regs.context ++ [regs.esp, regs.ss])[i]? = some v →
      loadWord mem (p + BitVec.ofNat 32 (4 * i)) = v := fun i v hi => h.get hi
  obtain ⟨gs, fs, es, ds, ebp, edi, esi, edx, ecx, ebx, eax, number, errorCode, eip, cs, eflags,
    esp, ss⟩ := regs
  simp only [regsAt, RegsT.mk.injEq]
  exact ⟨hget 0 gs rfl, hget 1 fs rfl, hget 2 es rfl, hget 3 ds rfl, hget 4 ebp rfl,
    hget 5 edi rfl, hget 6 esi rfl, hget 7 edx rfl, hget 8 ecx rfl, hget 9 ebx rfl,
    hget 10 eax rfl, hget 11 number rfl, hget 12 errorCode rfl, hget 13 eip rfl, hget 14 cs rfl,
    hget 15 eflags rfl, hget 16 esp rfl, hget 17 ss rfl⟩

section Entry

variable {upper : Word → BitVec 16} {stub : List (Instr CpuRegisters)} {error : Option Word}
  {number code : Word}

/-- From the gate on, a number and an error code come to lie on top of the context, one
way or the other, and of the registers only the flags change besides. -/
structure Numbers (stub : List (Instr CpuRegisters)) (error : Option Word) (number code : Word) :
    Prop where
  descends : Descends stub
  pushes : error.toList.length + pushes stub = 2
  run (gate : Gate) (a : ListMachine CpuRegisters) : ∃ flags,
    a.run ((error.toList.map fun code => .push fun _ _ => code) ++ enterGate gate :: stub) =
      some ⟨{ a.file with eip := gate.offset, cs := gate.selector, eflags := flags }, a.sp - 4 - 4,
        number :: code :: a.stack⟩

theorem numbers_irqStub (n : ℕ) : Numbers (irqStub n) none (BitVec.ofNat 32 n) 0 where
  descends := by simp [irqStub, cli, Descends, Instr.isPush]
  pushes := rfl
  run _ _ := ⟨_, rfl⟩

/-- The processor and the stub push one error code between them. -/
theorem numbers_exceptionStub (n : ℕ) (h : error.isSome = pushesErrorCode n) :
    Numbers (exceptionStub n) error (BitVec.ofNat 32 n) (error.getD 0) := by
  unfold exceptionStub
  rw [← h]
  cases error with
  | none =>
    refine ⟨?_, rfl, fun _ _ => ⟨_, rfl⟩⟩
    simp [cli, Descends, Instr.isPush]
  | some code =>
    refine ⟨?_, rfl, fun _ _ => ⟨_, rfl⟩⟩
    simp [cli, Descends, Instr.isPush]

/-- The wrapper pushes the other fields below them, and a pointer to the first. -/
theorem entry_run (upper : Word → BitVec 16) (hstub : Numbers stub error number code) (gate : Gate)
    {a : ListMachine CpuRegisters} {esp ss : Word} {ws : List Word}
    (hstack : a.stack = esp :: ss :: ws) :
    ∃ (regs : RegsT) (a' : ListMachine CpuRegisters),
      a.run (pushContext upper error ++ enterGate gate :: (stub ++ wrapperEntry upper)) = some a' ∧
      a'.stack = (a'.sp + 4) :: (regs.context ++ regs.esp :: regs.ss :: ws) ∧
      regs.Describes number code a.file ∧ regs.esp = esp ∧ regs.ss = ss ∧
      a'.sp + 68 = a.sp ∧ a'.file.cs = gate.selector ∧ a'.file.ss = a.file.ss ∧
      a'.file.tr = a.file.tr := by
  obtain ⟨file, sp, stack⟩ := a
  subst hstack
  let mid : ListMachine CpuRegisters :=
    ⟨file, sp - 4 - 4 - 4,
      file.eip :: slot upper (sp - 4) file.cs :: file.eflags :: esp :: ss :: ws⟩
  obtain ⟨flags, hnumbers⟩ := hstub.run gate mid
  have hsplit : pushContext upper error ++ enterGate gate :: (stub ++ wrapperEntry upper) =
      [.push fun _ r => r.eflags, .push fun a r => slot upper a r.cs, .push fun _ r => r.eip] ++
        ((error.toList.map fun code => .push fun _ _ => code) ++ enterGate gate :: stub) ++
        wrapperEntry upper := by
    simp [pushContext]
  have hcontext : (⟨file, sp, esp :: ss :: ws⟩ : ListMachine CpuRegisters).run
      [.push fun _ r => r.eflags, .push fun a r => slot upper a r.cs, .push fun _ r => r.eip] =
      some mid := rfl
  rw [hsplit, ListMachine.run_append, ListMachine.run_append, hcontext, Option.bind_some, hnumbers,
    Option.bind_some]
  let top := mid.sp - 4 - 4 - 4 - 4 - 4 - 4 - 4 - 4 - 4
  refine ⟨⟨slot upper (top - 4 - 4 - 4) file.gs, slot upper (top - 4 - 4) file.fs,
    slot upper (top - 4) file.es, slot upper top file.ds, file.ebp, file.edi, file.esi, file.edx,
    file.ecx, file.ebx, file.eax, number, code, file.eip, slot upper (sp - 4) file.cs, file.eflags,
    esp, ss⟩, _, rfl, ?_, ⟨lowHalf_slot _ _ _, lowHalf_slot _ _ _, lowHalf_slot _ _ _,
    lowHalf_slot _ _ _, rfl, rfl, rfl, rfl, rfl, rfl, rfl, rfl, rfl, rfl, lowHalf_slot _ _ _, rfl⟩,
    rfl, rfl, ?_, rfl, rfl, rfl⟩
  · exact congrArg (· :: _) (BitVec.sub_add_cancel _ 4).symm
  · change top - 4 - 4 - 4 - 4 - 4 + 68 = sp
    simp only [top, mid]
    bv_omega

variable {m : Cpu} {tss : TssStack} {gate : Gate}

/-- The words of the structure in front of those that were on the stack before. -/
def savedWords (m : Cpu) : ℕ := if privilege m.file.cs = 0 then 16 else 18

/-- Two words lie above the context: those of the program that was interrupted, or those
that lay there already. -/
theorem changeStack_spec (upper : Word → BitVec 16) (tss : TssStack) (m : Cpu) :
    ∃ (a : ListMachine CpuRegisters) (esp ss : Word), Represents (changeStack upper tss m) a ∧
      a.stack = [esp, ss] ∧ a.file = { m.file with ss := a.file.ss } ∧
      (privilege m.file.cs = 0 → a.file.ss = m.file.ss ∧ a.sp = m.sp) ∧
      (privilege m.file.cs ≠ 0 → a.sp + 8 = tss.esp0 ∧ esp = m.sp ∧ lowHalf ss = m.file.ss) := by
  unfold changeStack
  by_cases hkernel : privilege m.file.cs = 0
  · rw [if_pos hkernel]
    exact ⟨⟨m.file, m.sp, [loadWord m.mem m.sp, loadWord m.mem (m.sp + 4)]⟩, _, _,
      ⟨rfl, rfl, rfl, rfl, trivial⟩, rfl, rfl, fun _ => ⟨rfl, rfl⟩, fun h => absurd hkernel h⟩
  · rw [if_neg hkernel]
    have hempty : Represents
        (⟨{ m.file with ss := tss.ss0 }, tss.esp0, m.mem⟩ : Cpu)
        ⟨{ m.file with ss := tss.ss0 }, tss.esp0, []⟩ := ⟨rfl, rfl, trivial⟩
    refine ⟨⟨{ m.file with ss := tss.ss0 }, tss.esp0 - 4 - 4,
      [m.sp, slot upper tss.esp0 m.file.ss]⟩, _, _, hempty.run rfl (show 8 ≤ 2 ^ 32 by omega),
      rfl, rfl, fun h => absurd h hkernel, fun _ => ⟨?_, rfl, lowHalf_slot _ _ _⟩⟩
    bv_omega

/-- The processor pushes three words or four, the stub the others up to five, and the wrapper
twelve. -/
theorem pushes_entry (upper : Word → BitVec 16) (gate : Gate)
    (hstub : Numbers stub error number code) :
    pushes (pushContext upper error ++ enterGate gate :: (stub ++ wrapperEntry upper)) = 17 := by
  have hcontext : pushes (pushContext upper error) = 3 + error.toList.length := by
    cases error with
    | none => rfl
    | some code => rfl
  have hwrapper : pushes (wrapperEntry upper) = 12 := rfl
  have hgate : pushes (enterGate gate :: (stub ++ wrapperEntry upper)) =
      pushes (stub ++ wrapperEntry upper) := rfl
  have htwo := hstub.pushes
  rw [pushes_append, hgate, pushes_append, hcontext, hwrapper]
  omega

theorem descends_entry (upper : Word → BitVec 16) (gate : Gate)
    (hstub : Numbers stub error number code) :
    Descends (pushContext upper error ++ enterGate gate :: (stub ++ wrapperEntry upper)) := by
  have hcontext : Descends (pushContext upper error) := by
    cases error with
    | none => simp [pushContext, Descends, Instr.isPush]
    | some code => simp [pushContext, Descends, Instr.isPush]
  have hgate : Descends [enterGate gate] := by simp [Descends, enterGate]
  have hwrapper : Descends (wrapperEntry upper) := by
    simp [wrapperEntry, pushAll, loadKernelSegments, Descends, Instr.isPush]
  exact hcontext.append (hgate.append (hstub.descends.append hwrapper))

theorem atHandler_eq (upper : Word → BitVec 16) (tss : TssStack) (m : Cpu) :
    atHandler upper tss gate error stub m = (changeStack upper tss m).run
      (pushContext upper error ++ enterGate gate :: (stub ++ wrapperEntry upper)) := by
  unfold atHandler deliver
  rw [← Machine.run_append, List.append_assoc, List.singleton_append]

/-- What holds when the handler is called. -/
structure Entered (tss : TssStack) (gate : Gate) (number code : Word) (m e : Cpu) (regs : RegsT) :
    Prop where
  shows : regs.Shows number code m
  stack : Holds e.mem e.sp ((e.sp + 4) :: (regs.context ++ [regs.esp, regs.ss]))
  cs : e.file.cs = gate.selector
  tr : e.file.tr = m.file.tr
  kernel : privilege m.file.cs = 0 → e.file.ss = m.file.ss ∧ e.sp + 68 = m.sp
  program : privilege m.file.cs ≠ 0 → e.sp + 76 = tss.esp0

theorem atHandler_entered (upper : Word → BitVec 16) (tss : TssStack) (gate : Gate)
    (hstub : Numbers stub error number code) (m : Cpu) :
    ∃ regs, Entered tss gate number code m (atHandler upper tss gate error stub m) regs := by
  obtain ⟨a, esp, ss, hrep, hstack, hfile, hkernel, hprogram⟩ := changeStack_spec upper tss m
  obtain ⟨regs, a', hrun, hlist, hdescribes, hesp, hss, hsp, hcs, hss', htr⟩ :=
    entry_run upper hstub gate hstack
  have hentered := hrep.run hrun (by
    rw [hstack, pushes_entry upper gate hstub, List.length_cons, List.length_singleton]
    omega)
  rw [← atHandler_eq] at hentered
  obtain ⟨hfile', hsp', hholds⟩ := hentered
  refine ⟨regs, hdescribes.shows hfile ?_ ?_, ?_, ?_, ?_, ?_, ?_⟩
  · intro hprivilege
    rw [hesp, (hprogram hprivilege).2.1]
  · intro hprivilege
    rw [hss, (hprogram hprivilege).2.2]
  · rw [hlist, ← hsp'] at hholds
    exact hholds
  · rw [hfile', hcs]
  · rw [hfile', htr, hfile]
  · intro hprivilege
    rw [hfile', hss', (hkernel hprivilege).1, hsp', hsp, (hkernel hprivilege).2]
    exact ⟨rfl, rfl⟩
  · intro hprivilege
    rw [hsp', ← (hprogram hprivilege).1, ← hsp, BitVec.add_assoc]
    rfl

theorem changeStack_outside (upper : Word → BitVec 16) (tss : TssStack) (m : Cpu) {b : Word}
    (hb : privilege m.file.cs ≠ 0 → 8 ≤ (b - (changeStack upper tss m).sp).toNat) :
    (changeStack upper tss m).mem b = m.mem b := by
  have hpushed : Descends ([.push fun a _ => slot upper a m.file.ss, .push fun _ _ => m.sp] :
      List (Instr CpuRegisters)) := by
    simp [Descends, Instr.isPush]
  unfold changeStack at hb ⊢
  by_cases hkernel : privilege m.file.cs = 0
  · rw [if_pos hkernel]
  · rw [if_neg hkernel] at hb ⊢
    exact (hpushed.run _).2 b (hb hkernel)

/-- Below the stack nothing is written but the context, the words the stub and the wrapper
push and, for an interrupt of the program, its own stack. -/
theorem atHandler_outside (upper : Word → BitVec 16) (tss : TssStack) (gate : Gate)
    (hstub : Numbers stub error number code) (m : Cpu) {b : Word}
    (hb : 4 * (savedWords m + 1) ≤ (b - (atHandler upper tss gate error stub m).sp).toNat) :
    (atHandler upper tss gate error stub m).mem b = m.mem b := by
  have hdescends := descends_entry upper gate hstub
  have hpushes := pushes_entry upper gate hstub
  rw [atHandler_eq] at hb ⊢
  obtain ⟨hsp, hmem⟩ := hdescends.run (changeStack upper tss m)
  rw [hpushes] at hsp hmem
  have hsaved : 16 ≤ savedWords m := by
    unfold savedWords
    split <;> omega
  rw [hmem b (by omega)]
  refine changeStack_outside upper tss m fun hprivilege => ?_
  rw [savedWords, if_neg hprivilege, hsp] at hb
  bv_omega

/-- What iret pops on either stack. -/
def popContext : List (Instr CpuRegisters) :=
  [.pop fun v r => { r with eip := v }, .pop fun v r => { r with cs := lowHalf v },
    .pop fun v r => { r with eflags := v }]

/-- The registers with those in the structure in place of their own. -/
def RegsT.restore (regs : RegsT) (r : CpuRegisters) : CpuRegisters :=
  { r with
    gs := lowHalf regs.gs
    fs := lowHalf regs.fs
    es := lowHalf regs.es
    ds := lowHalf regs.ds
    ebp := regs.ebp
    edi := regs.edi
    esi := regs.esi
    edx := regs.edx
    ecx := regs.ecx
    ebx := regs.ebx
    eax := regs.eax
    eip := regs.eip
    cs := lowHalf regs.cs
    eflags := regs.eflags }

theorem RegsT.Describes.restore_eq {regs : RegsT} {r r' : CpuRegisters}
    (h : regs.Describes number code r) (htr : r'.tr = r.tr) :
    regs.restore r' = { r with ss := r'.ss } := by
  obtain ⟨hgs, hfs, hes, hds, hebp, hedi, hesi, hedx, hecx, hebx, heax, -, -, heip, hcs,
    hflags⟩ := h
  unfold RegsT.restore
  rw [hgs, hfs, hes, hds, hebp, hedi, hesi, hedx, hecx, hebx, heax, heip, hcs, hflags, htr]

/-- The wrapper takes the context back, up to the code segment and the flags. -/
theorem exit_run (regs : RegsT) {after : Cpu} {top : List Word}
    (h : Holds after.mem (after.sp + 4) (regs.context ++ top))
    (hroom : top.length ≤ 2) :
    (after.run wrapperExit).file.cs = after.file.cs ∧
      (after.run wrapperExit).file.eflags = after.file.eflags ∧
      Represents ((after.run wrapperExit).run popContext)
        ⟨regs.restore after.file, after.sp + 68, top⟩ := by
  have hrep : Represents after ⟨after.file, after.sp,
      loadWord after.mem after.sp :: (regs.context ++ top)⟩ := ⟨rfl, rfl, rfl, h⟩
  refine ⟨rfl, rfl, ?_⟩
  rw [← Machine.run_append]
  have hlist : (⟨after.file, after.sp, loadWord after.mem after.sp :: (regs.context ++ top)⟩ :
      ListMachine CpuRegisters).run (wrapperExit ++ popContext) =
      some ⟨regs.restore after.file, after.sp + 68, top⟩ := by
    have hsp : after.sp + 4 + 4 + 4 + 4 + 4 + 4 + 4 + 4 + 4 + 4 + 4 + 4 + BitVec.ofNat 32 (4 * 2) +
        4 + 4 + 4 = after.sp + 68 := by
      bv_omega
    exact congrArg (fun sp => some (⟨_, sp, top⟩ : ListMachine CpuRegisters)) hsp
  refine hrep.run hlist ?_
  have hpushes : pushes (wrapperExit ++ popContext) = 0 := rfl
  rw [hpushes, List.length_cons, List.length_append]
  have hcontext : regs.context.length = 16 := rfl
  omega

/-- With the flag NT clear, iret to the same privilege keeps the stack it has popped. -/
theorem iret_kernel {e : Cpu} {r : CpuRegisters} {sp : Word} {top : List Word}
    (hnested : e.file.eflags &&& FLAG_NT = 0) (hlevel : privilege e.file.cs = 0)
    (hpopped : Represents (e.run popContext) ⟨r, sp, top⟩) (hr : privilege r.cs = 0) :
    iret e = some ⟨r, sp, e.mem⟩ := by
  have hreturned : e.run popContext = ⟨r, sp, e.mem⟩ := by
    rw [hpopped.eq, Machine.run_mem rfl]
  unfold iret
  rw [if_neg (not_not.mpr hnested)]
  change (if privilege (e.run popContext).file.cs = privilege e.file.cs
    then some (e.run popContext) else _) = _
  rw [hreturned, hlevel, if_pos hr]

/-- To a program it takes back the stack pointer and the stack segment as well. -/
theorem iret_program {e : Cpu} {r : CpuRegisters} {sp esp ss : Word} {top : List Word}
    (hnested : e.file.eflags &&& FLAG_NT = 0) (hlevel : privilege e.file.cs = 0)
    (hpopped : Represents (e.run popContext) ⟨r, sp, esp :: ss :: top⟩) (hr : privilege r.cs ≠ 0) :
    iret e = some ⟨{ r with ss := lowHalf ss }, esp, e.mem⟩ := by
  obtain ⟨hfile, hsp, hesp, hss, -⟩ := hpopped
  have hmem : (e.run popContext).mem = e.mem := Machine.run_mem rfl e
  have hinner : (0 : BitVec 2) < privilege r.cs := by bv_omega
  unfold iret
  rw [if_neg (not_not.mpr hnested)]
  change (if privilege (e.run popContext).file.cs = privilege e.file.cs then _
    else if privilege e.file.cs < privilege (e.run popContext).file.cs then
      some (⟨{ (e.run popContext).file with
          ss := lowHalf (loadWord (e.run popContext).mem ((e.run popContext).sp + 4)) },
        loadWord (e.run popContext).mem (e.run popContext).sp, (e.run popContext).mem⟩ : Cpu)
    else none) = _
  rw [hfile, hlevel, if_neg hr, if_pos hinner, hss, hesp, hmem]

/-- After any handler that keeps to the calling convention, the program that was
interrupted goes on with the registers, the stack and the privilege it had. -/
theorem serviceInterrupt_resumes (upper : Word → BitVec 16) (tss : TssStack) (gate : Gate)
    (hgate : privilege gate.selector = 0) (hstub : Numbers stub error number code)
    (handler : Cpu → Cpu) (m : Cpu)
    (hreturns : Returns 1 (savedWords m) (atHandler upper tss gate error stub m)
      (handler (atHandler upper tss gate error stub m))) :
    serviceInterrupt upper tss gate error stub handler m =
      some ⟨m.file, m.sp, (handler (atHandler upper tss gate error stub m)).mem⟩ := by
  obtain ⟨regs, hentered⟩ := atHandler_entered upper tss gate hstub m
  unfold serviceInterrupt
  generalize atHandler upper tss gate error stub m = e at hentered hreturns ⊢
  generalize handler e = after at hreturns ⊢
  obtain ⟨hshows, ⟨-, hholds⟩, hcs, htr, hkernel, hprogram⟩ := hentered
  have hfile : regs.restore after.file = { m.file with ss := after.file.ss } :=
    hshows.restore_eq (hreturns.tr.trans htr)
  have hmem : (after.run wrapperExit).mem = after.mem := Machine.run_mem rfl after
  have hlevel : privilege after.file.cs = 0 := by rw [hreturns.cs, hcs, hgate]
  by_cases hprivilege : privilege m.file.cs = 0
  · obtain ⟨hss, hsp⟩ := hkernel hprivilege
    have hcontext := hreturns.holds (holds_append.mp hholds).1
      (by rw [savedWords, if_pos hprivilege]; exact le_rfl)
    rw [← List.append_nil regs.context] at hcontext
    obtain ⟨hcs', hflags, hpopped⟩ := exit_run regs hcontext (by simp)
    rw [iret_kernel (by rw [hflags, hreturns.nested]) (by rw [hcs', hlevel]) hpopped
      (by rw [hfile]; exact hprivilege), hmem, hfile, hreturns.sp, hsp, hreturns.ss, hss]
  · have hcontext := hreturns.holds hholds (by rw [savedWords, if_neg hprivilege]; exact le_rfl)
    obtain ⟨hcs', hflags, hpopped⟩ := exit_run regs hcontext le_rfl
    rw [iret_program (by rw [hflags, hreturns.nested]) (by rw [hcs', hlevel]) hpopped
      (by rw [hfile]; exact hprivilege), hmem, hfile, hshows.esp hprivilege, hshows.ss hprivilege]

theorem atHandler_shows (upper : Word → BitVec 16) (tss : TssStack) (gate : Gate)
    (hstub : Numbers stub error number code) (m : Cpu) :
    (regsAt (atHandler upper tss gate error stub m).mem
      (loadWord (atHandler upper tss gate error stub m).mem
        (atHandler upper tss gate error stub m).sp)).Shows number code m := by
  obtain ⟨regs, hshows, ⟨hpointer, hholds⟩, -⟩ := atHandler_entered upper tss gate hstub m
  rw [hpointer, regsAt_eq hholds]
  exact hshows

/-- irq_handler is passed the number of the interrupt and the state it found, and once it
returns the interrupted program goes on in that state. -/
theorem irqStub_resumes (upper : Word → BitVec 16) (tss : TssStack) (gate : Gate)
    (hgate : privilege gate.selector = 0) (n : ℕ) (irqHandler : Cpu → Cpu) (m : Cpu)
    (hreturns : Returns 1 (savedWords m) (atHandler upper tss gate none (irqStub n) m)
      (irqHandler (atHandler upper tss gate none (irqStub n) m))) :
    let e := atHandler upper tss gate none (irqStub n) m
    (regsAt e.mem (loadWord e.mem e.sp)).Shows (BitVec.ofNat 32 n) 0 m ∧
      (∀ b : Word, 4 * (savedWords m + 1) ≤ (b - e.sp).toNat → e.mem b = m.mem b) ∧
      serviceInterrupt upper tss gate none (irqStub n) irqHandler m =
        some ⟨m.file, m.sp, (irqHandler e).mem⟩ :=
  ⟨atHandler_shows upper tss gate (numbers_irqStub n) m,
    fun _ hb => atHandler_outside upper tss gate (numbers_irqStub n) m hb,
    serviceInterrupt_resumes upper tss gate hgate (numbers_irqStub n) irqHandler m hreturns⟩

/-- Whether the processor pushes an error code or the stub does, exception_handler finds
every field in its place; the code is 0 where there is none. -/
theorem exceptionStub_shows (upper : Word → BitVec 16) (tss : TssStack) (gate : Gate) (n : ℕ)
    (error : Option Word) (herror : error.isSome = pushesErrorCode n) (m : Cpu) :
    let e := atHandler upper tss gate error (exceptionStub n) m
    (regsAt e.mem (loadWord e.mem e.sp)).Shows (BitVec.ofNat 32 n) (error.getD 0) m ∧
      ∀ b : Word, 4 * (savedWords m + 1) ≤ (b - e.sp).toNat → e.mem b = m.mem b :=
  ⟨atHandler_shows upper tss gate (numbers_exceptionStub n herror) m,
    fun _ hb => atHandler_outside upper tss gate (numbers_exceptionStub n herror) m hb⟩

end Entry

section Examples

/-- A program at privilege 3, in a task that was called. -/
def exampleProgram : Cpu where
  file :=
    { gs := 15, fs := 15, es := 15, ds := 15, ebp := 1, edi := 2, esi := 3, edx := 4, ecx := 5,
      ebx := 6, eax := 7, eip := 0x1234, cs := 7, eflags := 0x4202, ss := 15, tr := 0x28 }
  sp := 0x4000
  mem := fun _ => 0

/-- A page fault of that program comes with an error code. -/
theorem exceptionStub_shows_pageFault :
    (some (2 : Word)).isSome = pushesErrorCode 14 ∧
      ∃ e : Cpu, (regsAt e.mem (loadWord e.mem e.sp)).Shows 14 2 exampleProgram := by
  have herror : (some (2 : Word)).isSome = pushesErrorCode 14 := by decide
  exact ⟨herror, _, (exceptionStub_shows (fun _ => 0) ⟨0x300000, 0x10⟩ ⟨0x100000, 8, true⟩ 14
    (some 2) herror exampleProgram).1⟩

/-- irq_handler for the disk does nothing but change the colour and write to the ports. -/
def exampleHandler (e : Cpu) : Cpu where
  file := { e.file with eax := 0, edx := 0x20 }
  sp := e.sp
  mem := Function.update e.mem 0x200000 0x0C

theorem irqStub_resumes_disk :
    serviceInterrupt (fun _ => 0) ⟨0x300000, 0x10⟩ ⟨0x101000, 8, true⟩ none (irqStub 14)
      exampleHandler exampleProgram =
      some ⟨exampleProgram.file, 0x4000, (exampleHandler (atHandler (fun _ => 0) ⟨0x300000, 0x10⟩
        ⟨0x101000, 8, true⟩ none (irqStub 14) exampleProgram)).mem⟩ := by
  have hreturns : Returns 1 (savedWords exampleProgram)
      (atHandler (fun _ => 0) ⟨0x300000, 0x10⟩ ⟨0x101000, 8, true⟩ none (irqStub 14) exampleProgram)
      (exampleHandler (atHandler (fun _ => 0) ⟨0x300000, 0x10⟩ ⟨0x101000, 8, true⟩ none
        (irqStub 14) exampleProgram)) := by
    refine ⟨rfl, rfl, rfl, rfl, by decide, fun k hk => Function.update_of_ne ?_ _ _⟩
    change _ < 72 at hk
    change (0x300000 - 76 : Word) + BitVec.ofNat 32 (4 * 1 + k) ≠ 0x200000
    bv_omega
  exact (irqStub_resumes (fun _ => 0) ⟨0x300000, 0x10⟩ ⟨0x101000, 8, true⟩ (by decide) 14
    exampleHandler exampleProgram hreturns).2.2

end Examples

end RathalOS.InterruptStubs
