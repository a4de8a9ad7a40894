import RathalOS.HardwareTasks
import RathalOS.Launches

/-!
The switches between tasks: task_switch of kernel/task/task_asm.s, which exec calls, and the
iret of user/entrypoint_asm.s, by which a program returns, on the segments that gdt_init of
kernel/gdt/gdt.c and task_setup of kernel/task/task.c set up. exec never takes an entry of the
task table twice, so that each program starts as task_setup says, and the programs that
launched one another return in their order.
-/
namespace RathalOS.TaskCalls

open ByteMemory KernelFiles Descriptors Syscalls Tasks Launches HardwareTasks

section Processor

/-- The registers that a switch saves in a TSS. -/
structure Registers where
  eip : Word
  eflags : Word
  eax : Word
  ecx : Word
  edx : Word
  ebx : Word
  esp : Word
  ebp : Word
  esi : Word
  edi : Word
  es : BitVec 16
  cs : BitVec 16
  ss : BitVec 16
  ds : BitVec 16
  fs : BitVec 16
  gs : BitVec 16

def registersOf (tss : Tss) : Registers :=
  ⟨tss.eip, tss.eflags, tss.eax, tss.ecx, tss.edx, tss.ebx, tss.esp, tss.ebp, tss.esi, tss.edi,
    tss.es, tss.cs, tss.ss, tss.ds, tss.fs, tss.gs⟩

def saveRegisters (tss : Tss) (r : Registers) : Tss :=
  { tss with
    eip := r.eip
    eflags := r.eflags
    eax := r.eax
    ecx := r.ecx
    edx := r.edx
    ebx := r.ebx
    esp := r.esp
    ebp := r.ebp
    esi := r.esi
    edi := r.edi
    es := r.es
    cs := r.cs
    ss := r.ss
    ds := r.ds
    fs := r.fs
    gs := r.gs }

@[simp] theorem registersOf_saveRegisters (tss : Tss) (r : Registers) :
    registersOf (saveRegisters tss r) = r := rfl

/-- The flag NT, and the type of the descriptor of a task that is busy. -/
def FLAG_NT : Word := 0x4000
def TYPE_TSS_BUSY : BitVec 4 := 0xB

/-- NT as the flag of a called task. -/
def nested : Flag Registers where
  get r := decide (r.eflags &&& FLAG_NT ≠ 0)
  set b r := { r with
    eflags := if b = true then r.eflags ||| FLAG_NT else r.eflags &&& ~~~FLAG_NT }

/-- The initial TSS of gdt_init or that of a task. -/
inductive TssName
  | initial
  | task (i : Fin MAX_TASK_COUNT)
  deriving DecidableEq

/-- Where the tables lie: the TSS of gdt_init is not in the task table. -/
structure Places where
  placement : Placement
  initialTss : Word
  initialTssKernelStack : Word
  tssSelSeg : Word
  apart : ∀ i, placement.entryAddress i 0 ≠ initialTss

/-- The registers, with those that a switch loads only, and the tables. The base of the current
TSS is kept beside the task register. -/
structure State where
  registers : Registers
  ldtr : BitVec 16
  tr : BitVec 16
  trBase : Word
  gdtTable : Fin 24 → GdtEntry
  initialTss : Tss
  taskTable : Fin MAX_TASK_COUNT → TaskEntry

namespace State

def tss (s : State) : TssName → Tss
  | .initial => s.initialTss
  | .task i => (s.taskTable i).taskTss

def setTss (s : State) (n : TssName) (tss : Tss) : State :=
  match n with
  | .initial => { s with initialTss := tss }
  | .task i =>
    { s with taskTable := Function.update s.taskTable i { s.taskTable i with taskTss := tss } }

end State

/-- The TSS that an address is that of. -/
def resolve (places : Places) (base : Word) : Option TssName :=
  if base = places.initialTss then some .initial
  else ((List.finRange MAX_TASK_COUNT).find? fun i =>
    decide (places.placement.entryAddress i 0 = base)).map .task

/-- The entry of the GDT that a selector names. -/
def entryIndex (selector : BitVec 16) : Option (Fin 24) :=
  if h : selector &&& 4 = 0 ∧ (selector >>> 3).toNat < 24 then some ⟨_, h.2⟩ else none

/-- The descriptor is that of a TSS of this type. -/
def IsTss (descriptor : GdtEntry) (type : BitVec 4) : Prop :=
  descriptor.s = 0 ∧ descriptor.type = type ∧ descriptor.present = 1 ∧
    sizeofTss - 1 ≤ descriptor.limit.toNat

instance (descriptor : GdtEntry) (type : BitVec 4) : Decidable (IsTss descriptor type) := by
  unfold IsTss
  infer_instance

/-- The far call of a task. It is refused if the task is busy, or if the caller or the
selector is not privileged enough. -/
def farCall (places : Places) (selector : BitVec 16) (s : State) : Option State := do
  let index ← entryIndex selector
  let descriptor := s.gdtTable index
  if IsTss descriptor (TYPE_TSS.setWidth 4) ∧
      (s.registers.cs &&& 3).toNat ≤ descriptor.dpl.toNat ∧
      (selector &&& 3).toNat ≤ descriptor.dpl.toNat then do
    let old ← resolve places s.trBase
    let new ← resolve places descriptor.base
    let s := s.setTss old (saveRegisters (s.tss old) s.registers)
    let s := s.setTss new { s.tss new with previousTaskLink := s.tr }
    some { s with
      registers := nested.set true (registersOf (s.tss new))
      ldtr := (s.tss new).ldtSelector
      tr := selector
      trBase := descriptor.base
      gdtTable := Function.update s.gdtTable index { descriptor with type := TYPE_TSS_BUSY } }
  else none

/-- The instruction iret of a task that was called. With NT clear it stays in the task. -/
def iretTask (places : Places) (s : State) : Option State :=
  if nested.get s.registers = true then do
    let old ← resolve places s.trBase
    let link := (s.tss old).previousTaskLink
    let index ← entryIndex link
    let descriptor := s.gdtTable index
    if IsTss descriptor TYPE_TSS_BUSY then do
      let current ← entryIndex s.tr
      let new ← resolve places descriptor.base
      let s := s.setTss old (saveRegisters (s.tss old) (nested.set false s.registers))
      some { s with
        registers := registersOf (s.tss new)
        ldtr := (s.tss new).ldtSelector
        tr := link
        trBase := descriptor.base
        gdtTable := Function.update s.gdtTable current
          { s.gdtTable current with type := TYPE_TSS.setWidth 4 } }
    else none
  else none

/-- The registers at the far call of task_switch: ax holds the selector, and ecx the address
of the segment in the far pointer. -/
def atFarCall (places : Places) (selector : BitVec 16) (r : Registers) : Registers :=
  { r with
    eax := (r.eax &&& 0xFFFF0000) ||| selector.setWidth 32
    ecx := places.tssSelSeg }

def taskSwitch (places : Places) (selector : BitVec 16) (s : State) : Option State :=
  farCall places selector { s with registers := atFarCall places selector s.registers }

end Processor

section Simulation

variable {places : Places} {s s' : State} {m m' : Machine TssName Registers} {n : TssName}

def addressOf (places : Places) : TssName → Word
  | .initial => places.initialTss
  | .task i => places.placement.entryAddress i 0

def entryOf : TssName → Fin 24
  | .initial => ⟨3, by decide⟩
  | .task i => tssEntry i

def selectorOf (n : TssName) : BitVec 16 := BitVec.ofNat 16 (8 * (entryOf n : ℕ))

def tssDescriptor (places : Places) (n : TssName) (busy : Bool) : GdtEntry :=
  { gdtMakeTss (addressOf places n) DPL_KERNEL with
    type := if busy = true then TYPE_TSS_BUSY else TYPE_TSS.setWidth 4 }

/-- The selector in the link of a TSS. -/
def linkSelector : Option TssName → BitVec 16
  | none => 0
  | some u => selectorOf u

/-- The tables hold the tasks of a machine. -/
structure Represents (places : Places) (s : State) (m : Machine TssName Registers) : Prop where
  tr : s.tr = selectorOf m.current
  trBase : s.trBase = addressOf places m.current
  registers : s.registers = m.context
  saved : ∀ n, registersOf (s.tss n) = m.saved n
  link : ∀ n, (s.tss n).previousTaskLink = linkSelector (m.link n)
  descriptor : ∀ n, s.gdtTable (entryOf n) = tssDescriptor places n (m.busy n)
  null : s.gdtTable ⟨0, by decide⟩ = gdtMakeNullSegment

theorem entryOf_inj {n n' : TssName} (h : entryOf n = entryOf n') : n = n' := by
  have hval := congrArg Fin.val h
  cases n with
  | initial =>
    cases n' with
    | initial => rfl
    | task j =>
      simp only [entryOf, tssEntry, GDT_RESERVED_ENTRIES] at hval
      omega
  | task i =>
    cases n' with
    | initial =>
      simp only [entryOf, tssEntry, GDT_RESERVED_ENTRIES] at hval
      omega
    | task j => exact congrArg TssName.task (tssEntry_inj h)

theorem entryOf_pos (n : TssName) : 0 < (entryOf n : ℕ) := by
  cases n with
  | initial => decide
  | task i =>
    simp only [entryOf, tssEntry, GDT_RESERVED_ENTRIES]
    omega

theorem entryAddress_inj (p : Placement) {i j : Fin MAX_TASK_COUNT}
    (h : p.entryAddress i 0 = p.entryAddress j 0) : i = j := by
  have hval := congrArg BitVec.toNat h
  rw [p.entryAddress_toNat i (by decide), p.entryAddress_toNat j (by decide), sizeofTask_eq] at hval
  exact Fin.ext (by omega)

theorem resolve_addressOf (places : Places) (n : TssName) :
    resolve places (addressOf places n) = some n := by
  cases n with
  | initial => exact if_pos rfl
  | task i =>
    rw [resolve, addressOf, if_neg (places.apart i)]
    cases hfound : (List.finRange MAX_TASK_COUNT).find? fun j =>
        decide (places.placement.entryAddress j 0 = places.placement.entryAddress i 0) with
    | none =>
      exact absurd (decide_eq_true rfl) (List.find?_eq_none.mp hfound i (List.mem_finRange i))
    | some j =>
      have hj := List.find?_some hfound
      simp only [decide_eq_true_eq] at hj
      rw [entryAddress_inj _ hj]
      rfl

theorem selectorOf_toNat (n : TssName) : (selectorOf n).toNat = 8 * (entryOf n : ℕ) := by
  have hlt := (entryOf n).isLt
  rw [selectorOf, BitVec.toNat_ofNat]
  omega

/-- The low bits of a selector are 0. -/
theorem selectorOf_low (n : TssName) : selectorOf n &&& 4 = 0 ∧ selectorOf n &&& 3 = 0 := by
  have hall : ∀ e : Fin 24, BitVec.ofNat 16 (8 * (e : ℕ)) &&& 4 = 0 ∧
      BitVec.ofNat 16 (8 * (e : ℕ)) &&& 3 = 0 := by
    decide
  exact hall (entryOf n)

theorem entryIndex_selectorOf (n : TssName) : entryIndex (selectorOf n) = some (entryOf n) := by
  have hshift : (selectorOf n >>> 3).toNat = entryOf n := by
    rw [BitVec.toNat_ushiftRight, selectorOf_toNat, Nat.shiftRight_eq_div_pow]
    omega
  have hlt : (selectorOf n >>> 3).toNat < 24 := hshift ▸ (entryOf n).isLt
  rw [entryIndex, dif_pos ⟨(selectorOf_low n).1, hlt⟩]
  exact congrArg some (Fin.ext hshift)

theorem isTss_tssDescriptor (places : Places) (n : TssName) (busy : Bool) (type : BitVec 4) :
    IsTss (tssDescriptor places n busy) type ↔
      (if busy = true then TYPE_TSS_BUSY else TYPE_TSS.setWidth 4) = type := by
  have hlimit : (tssDescriptor places n busy).limit =
      (gdtMakeTss (addressOf places n) DPL_KERNEL).limit := rfl
  constructor
  · exact fun h => h.2.1
  · refine fun h => ⟨rfl, h, rfl, ?_⟩
    rw [hlimit, gdtMakeTss, buildEntry_limit]
    decide

theorem tssDescriptor_base (places : Places) (n : TssName) (busy : Bool) :
    (tssDescriptor places n busy).base = addressOf places n := by
  have hbase : (tssDescriptor places n busy).base =
      (gdtMakeTss (addressOf places n) DPL_KERNEL).base := rfl
  rw [hbase, gdtMakeTss, buildEntry_base]

theorem tss_setTss (s : State) (n n' : TssName) (tss : Tss) :
    (s.setTss n tss).tss n' = if n' = n then tss else s.tss n' := by
  cases n with
  | initial => cases n' <;> simp [State.setTss, State.tss]
  | task i =>
    cases n' with
    | initial => simp [State.setTss, State.tss]
    | task j =>
      by_cases hij : j = i
      · subst hij
        simp [State.setTss, State.tss]
      · simp [State.setTss, State.tss, hij]

@[simp] theorem setTss_gdtTable (s : State) (n : TssName) (tss : Tss) :
    (s.setTss n tss).gdtTable = s.gdtTable := by cases n <;> rfl

@[simp] theorem setTss_tr (s : State) (n : TssName) (tss : Tss) :
    (s.setTss n tss).tr = s.tr := by cases n <;> rfl

/-- What no switch changes. -/
structure Keeps (s s' : State) : Prop where
  status : ∀ i, (s'.taskTable i).status = (s.taskTable i).status
  selector : ∀ i, (s'.taskTable i).tssSelector = (s.taskTable i).tssSelector
  ldtSelector : ∀ n, (s'.tss n).ldtSelector = (s.tss n).ldtSelector

theorem keeps_setTss (s : State) (n : TssName) (tss : Tss)
    (hldt : tss.ldtSelector = (s.tss n).ldtSelector) : Keeps s (s.setTss n tss) := by
  constructor
  case status =>
    intro i
    cases n with
    | initial => rfl
    | task j => by_cases hij : i = j <;> simp [State.setTss, hij]
  case selector =>
    intro i
    cases n with
    | initial => rfl
    | task j => by_cases hij : i = j <;> simp [State.setTss, hij]
  case ldtSelector =>
    intro n'
    rw [tss_setTss]
    split
    · rename_i hn
      rw [hldt, hn]
    · rfl

theorem Keeps.trans {s'' : State} (h : Keeps s s') (h' : Keeps s' s'') : Keeps s s'' where
  status i := (h'.status i).trans (h.status i)
  selector i := (h'.selector i).trans (h.selector i)
  ldtSelector n := (h'.ldtSelector n).trans (h.ldtSelector n)

/-- A descriptor of a TSS is changed as the machine's note of the task is, and that is all. -/
theorem descriptor_update {gdtTable : Fin 24 → GdtEntry} {busy : TssName → Bool}
    (h : ∀ n', gdtTable (entryOf n') = tssDescriptor places n' (busy n')) (n : TssName) (b : Bool)
    (n' : TssName) : Function.update gdtTable (entryOf n) (tssDescriptor places n b) (entryOf n') =
      tssDescriptor places n' (Function.update busy n b n') := by
  by_cases hn : n' = n
  · rw [hn, Function.update_self, Function.update_self]
  · rw [Function.update_of_ne fun he => hn (entryOf_inj he), Function.update_of_ne hn]
    exact h n'

theorem null_update {gdtTable : Fin 24 → GdtEntry}
    (h : gdtTable ⟨0, by decide⟩ = gdtMakeNullSegment) (n : TssName) (descriptor : GdtEntry) :
    Function.update gdtTable (entryOf n) descriptor ⟨0, by decide⟩ = gdtMakeNullSegment := by
  rw [Function.update_of_ne, h]
  intro he
  have hpos := entryOf_pos n
  rw [← he] at hpos
  exact absurd hpos (Nat.lt_irrefl 0)

/-- The switch to a task that is not busy is a call of it. -/
theorem Represents.farCall (h : Represents places s m) (hlevel : s.registers.cs &&& 3 = 0)
    (hcurrent : m.busy m.current = true) (hcall : call nested n m = some m') :
    ∃ s', farCall places (selectorOf n) s = some s' ∧ Represents places s' m' ∧ Keeps s s' ∧
      s'.ldtr = (s.tss n).ldtSelector := by
  have hfree : m.busy n ≠ true := by
    intro hbusy
    rw [call, if_pos hbusy] at hcall
    cases hcall
  rw [call, if_neg hfree] at hcall
  cases hcall
  have hdescriptor := h.descriptor n
  have htss : IsTss (tssDescriptor places n (m.busy n)) (TYPE_TSS.setWidth 4) :=
    (isTss_tssDescriptor places n _ _).mpr (if_neg hfree)
  let saved := s.setTss m.current (saveRegisters (s.tss m.current) s.registers)
  let linked := saved.setTss n { saved.tss n with previousTaskLink := saved.tr }
  have hsaved : Keeps s saved := keeps_setTss s _ _ rfl
  have hlinked : Keeps s linked := hsaved.trans (keeps_setTss saved _ _ rfl)
  have hregisters : ∀ n', registersOf (linked.tss n') =
      Function.update m.saved m.current m.context n' := by
    intro n'
    have hsame : registersOf (linked.tss n') = registersOf (saved.tss n') := by
      rw [tss_setTss]
      split
      · rename_i hn
        rw [hn]
        rfl
      · rfl
    rw [hsame, tss_setTss, Function.update_apply]
    split
    · rw [registersOf_saveRegisters, h.registers]
    · exact h.saved n'
  have hlinks : ∀ n', (linked.tss n').previousTaskLink =
      linkSelector (Function.update m.link n (some m.current) n') := by
    intro n'
    have hsame : (saved.tss n').previousTaskLink = (s.tss n').previousTaskLink := by
      rw [tss_setTss]
      split
      · rename_i hn
        rw [hn]
        rfl
      · rfl
    rw [tss_setTss, Function.update_apply]
    split
    · exact (setTss_tr s _ _).trans h.tr
    · rw [hsame]
      exact h.link n'
  refine ⟨{ linked with
    registers := nested.set true (registersOf (linked.tss n))
    ldtr := (linked.tss n).ldtSelector
    tr := selectorOf n
    trBase := addressOf places n
    gdtTable := Function.update linked.gdtTable (entryOf n)
      { tssDescriptor places n (m.busy n) with type := TYPE_TSS_BUSY } }, ?_, ?_, ?_, ?_⟩
  · have hpass : IsTss (s.gdtTable (entryOf n)) (TYPE_TSS.setWidth 4) ∧
        (s.registers.cs &&& 3).toNat ≤ (s.gdtTable (entryOf n)).dpl.toNat ∧
        (selectorOf n &&& 3).toNat ≤ (s.gdtTable (entryOf n)).dpl.toNat := by
      rw [hdescriptor, hlevel, (selectorOf_low n).2]
      exact ⟨htss, Nat.zero_le _, Nat.zero_le _⟩
    rw [TaskCalls.farCall, entryIndex_selectorOf]
    simp only [Option.bind_eq_bind, Option.bind_some]
    rw [if_pos hpass, hdescriptor, tssDescriptor_base, h.trBase, resolve_addressOf,
      resolve_addressOf]
    rfl
  · constructor
    case tr => rfl
    case trBase => rfl
    case registers =>
      change nested.set true (registersOf (linked.tss n)) = nested.set true (m.saved n)
      rw [hregisters, Function.update_of_ne]
      rintro rfl
      exact hfree hcurrent
    case saved =>
      intro n'
      refine Eq.trans ?_ (hregisters n')
      cases n' <;> rfl
    case link =>
      intro n'
      refine Eq.trans ?_ (hlinks n')
      cases n' <;> rfl
    case descriptor =>
      refine descriptor_update ?_ n true
      rw [setTss_gdtTable, setTss_gdtTable]
      exact h.descriptor
    case null =>
      refine null_update ?_ n _
      rw [setTss_gdtTable, setTss_gdtTable]
      exact h.null
  · exact ⟨hlinked.status, hlinked.selector, hlinked.ldtSelector⟩
  · exact hlinked.ldtSelector n

/-- The iret of a called task is its return. -/
theorem Represents.iretTask (h : Represents places s m)
    (hlink : m.link m.current ≠ some m.current) (hret : ret nested m = some m') :
    ∃ s', iretTask places s = some s' ∧ Represents places s' m' ∧ Keeps s s' := by
  rw [ret] at hret
  split at hret
  · rename_i hnested
    split at hret
    · cases hret
    · rename_i u hu
      split at hret
      · rename_i hbusy
        cases hret
        have hdescriptor := h.descriptor u
        rw [hbusy] at hdescriptor
        have hother : u ≠ m.current := fun heq => hlink (heq ▸ hu)
        let saved := s.setTss m.current
          (saveRegisters (s.tss m.current) (nested.set false s.registers))
        have hsaved : Keeps s saved := keeps_setTss s _ _ rfl
        have hregisters : ∀ n', registersOf (saved.tss n') =
            Function.update m.saved m.current (nested.set false m.context) n' := by
          intro n'
          rw [tss_setTss, Function.update_apply]
          split
          · rw [registersOf_saveRegisters, h.registers]
          · exact h.saved n'
        have hlinks : ∀ n', (saved.tss n').previousTaskLink = linkSelector (m.link n') := by
          intro n'
          rw [← h.link n', tss_setTss]
          split
          · rename_i hn
            rw [hn]
            rfl
          · rfl
        refine ⟨{ saved with
          registers := registersOf (saved.tss u)
          ldtr := (saved.tss u).ldtSelector
          tr := selectorOf u
          trBase := addressOf places u
          gdtTable := Function.update saved.gdtTable (entryOf m.current)
            { saved.gdtTable (entryOf m.current) with type := TYPE_TSS.setWidth 4 } }, ?_, ?_, ?_⟩
        · have htss : IsTss (tssDescriptor places u true) TYPE_TSS_BUSY :=
            (isTss_tssDescriptor places u true _).mpr (if_pos rfl)
          have hselector : (s.tss m.current).previousTaskLink = selectorOf u := by
            rw [h.link, hu]
            rfl
          rw [← h.registers] at hnested
          rw [TaskCalls.iretTask, if_pos hnested, h.trBase, resolve_addressOf]
          simp only [Option.bind_eq_bind, Option.bind_some]
          rw [hselector, entryIndex_selectorOf]
          simp only [Option.bind_some]
          rw [hdescriptor, if_pos htss, h.tr, entryIndex_selectorOf, tssDescriptor_base,
            resolve_addressOf]
          rfl
        · constructor
          case tr => rfl
          case trBase => rfl
          case registers =>
            change registersOf (saved.tss u) = m.saved u
            rw [hregisters, Function.update_of_ne hother]
          case saved =>
            intro n'
            refine Eq.trans ?_ (hregisters n')
            cases n' <;> rfl
          case link =>
            intro n'
            refine Eq.trans ?_ (hlinks n')
            cases n' <;> rfl
          case descriptor =>
            have hold : { saved.gdtTable (entryOf m.current) with type := TYPE_TSS.setWidth 4 } =
                tssDescriptor places m.current false := by
              rw [setTss_gdtTable, h.descriptor]
              rfl
            dsimp only
            rw [hold]
            refine descriptor_update ?_ m.current false
            rw [setTss_gdtTable]
            exact h.descriptor
          case null =>
            refine null_update ?_ m.current _
            rw [setTss_gdtTable]
            exact h.null
        · exact ⟨hsaved.status, hsaved.selector, hsaved.ldtSelector⟩
      · cases hret
  · cases hret

end Simulation

section Boot

/-- The instruction ltr, for a selector of the GDT: the task is busy from now on. -/
def taskLtr (index : Fin 24) (s : State) : State :=
  { s with
    tr := (GDT_INDEX_TO_SELECTOR index).setWidth 16
    trBase := (s.gdtTable index).base
    gdtTable := Function.update s.gdtTable index
      { s.gdtTable index with type := TYPE_TSS_BUSY } }

def gdtInit (places : Places) (s : State) : State :=
  let gdtTable := Function.update (Function.update (Function.update s.gdtTable
    ⟨0, by decide⟩ gdtMakeNullSegment)
    ⟨1, by decide⟩ (gdtMakeCodeSegment 0 0xFFFFF DPL_KERNEL))
    ⟨2, by decide⟩ (gdtMakeDataSegment 0 0xFFFFF DPL_KERNEL)
  let s := { s with
    gdtTable := Function.update gdtTable ⟨3, by decide⟩ (gdtMakeTss places.initialTss DPL_KERNEL)
    initialTss := { Tss.zero with
      ss0 := GDT_KERNEL_DATA_SELECTOR
      esp0 := places.initialTssKernelStack + 4096 } }
  let s := taskLtr ⟨3, by decide⟩ s
  let t := taskSetup places.placement ⟨s.gdtTable, s.taskTable⟩
  { s with
    gdtTable := t.gdtTable
    taskTable := t.taskTable }

variable {places : Places}

/-- The reserved entries are not touched by task_setup. -/
theorem setupTasks_reserved (p : Placement) (l : List (Fin MAX_TASK_COUNT)) (t : Tables)
    {e : Fin 24} (he : (e : ℕ) < GDT_RESERVED_ENTRIES) :
    (l.foldl (setupTask p) t).gdtTable e = t.gdtTable e := by
  induction l generalizing t with
  | nil => rfl
  | cons i rest ih =>
    rw [List.foldl_cons, ih]
    simp only [setupTask]
    rw [Function.update_of_ne, Function.update_of_ne]
    · rintro rfl
      simp only [tssEntry] at he
      omega
    · rintro rfl
      simp only [ldtEntry] at he
      omega

/-- Nothing has been called yet. -/
def firstMachine (s : State) : Machine TssName Registers where
  current := .initial
  context := s.registers
  saved n := registersOf (s.tss n)
  link _ := none
  busy n := decide (n = .initial)

theorem gdtInit_tr (places : Places) (s : State) :
    (gdtInit places s).tr = selectorOf .initial ∧
      (gdtInit places s).trBase = places.initialTss := by
  unfold gdtInit taskLtr
  dsimp only
  rw [Function.update_self, gdtMakeTss, buildEntry_base]
  exact ⟨by decide, rfl⟩

/-- Of the entries of gdt_init the one of the initial TSS is in use. -/
theorem gdtInit_reserved (places : Places) (s : State) :
    (gdtInit places s).gdtTable ⟨0, by decide⟩ = gdtMakeNullSegment ∧
    (gdtInit places s).gdtTable ⟨1, by decide⟩ = gdtMakeCodeSegment 0 0xFFFFF DPL_KERNEL ∧
    (gdtInit places s).gdtTable ⟨2, by decide⟩ = gdtMakeDataSegment 0 0xFFFFF DPL_KERNEL ∧
    (gdtInit places s).gdtTable ⟨3, by decide⟩ = tssDescriptor places .initial true := by
  unfold gdtInit taskLtr taskSetup
  dsimp only
  rw [setupTasks_reserved _ _ _ (by decide), setupTasks_reserved _ _ _ (by decide),
    setupTasks_reserved _ _ _ (by decide), setupTasks_reserved _ _ _ (by decide)]
  dsimp only
  simp only [Function.update_self]
  refine ⟨?_, ?_, ?_, rfl⟩
  · rw [Function.update_of_ne (by decide), Function.update_of_ne (by decide),
      Function.update_of_ne (by decide), Function.update_of_ne (by decide), Function.update_self]
  · rw [Function.update_of_ne (by decide), Function.update_of_ne (by decide),
      Function.update_of_ne (by decide), Function.update_self]
  · rw [Function.update_of_ne (by decide), Function.update_of_ne (by decide),
      Function.update_self]

/-- The entries of the tasks are those of task_setup. -/
theorem gdtInit_task (places : Places) (s : State) (i : Fin MAX_TASK_COUNT) :
    (gdtInit places s).gdtTable (tssEntry i) = tssDescriptor places (.task i) false ∧
      (gdtInit places s).taskTable i = initialised places.placement i (s.taskTable i) := by
  unfold gdtInit taskLtr
  dsimp only
  rw [taskSetup_taskTable]
  exact ⟨(taskSetup_selector places.placement _ i).2, rfl⟩

theorem gdtInit_link (places : Places) (s : State) (n : TssName) :
    ((gdtInit places s).tss n).previousTaskLink = 0 := by
  cases n with
  | initial => rfl
  | task i =>
    change ((gdtInit places s).taskTable i).taskTss.previousTaskLink = 0
    rw [(gdtInit_task places s i).2]
    rfl

theorem represents_gdtInit (places : Places) (s : State) :
    Represents places (gdtInit places s) (firstMachine (gdtInit places s)) where
  tr := (gdtInit_tr places s).1
  trBase := (gdtInit_tr places s).2
  registers := rfl
  saved _ := rfl
  link := gdtInit_link places s
  descriptor n := by
    cases n with
    | initial => exact (gdtInit_reserved places s).2.2.2
    | task i => exact (gdtInit_task places s i).1
  null := (gdtInit_reserved places s).1

/-- The segments of the kernel are all of memory. -/
theorem gdtInit_flat (places : Places) (s : State) :
    ((gdtInit places s).gdtTable ⟨1, by decide⟩).base = 0 ∧
    ((gdtInit places s).gdtTable ⟨1, by decide⟩).size = 2 ^ 32 ∧
    ((gdtInit places s).gdtTable ⟨2, by decide⟩).base = 0 ∧
    ((gdtInit places s).gdtTable ⟨2, by decide⟩).size = 2 ^ 32 := by
  have hflat : ∀ type, (buildEntry 0 0xFFFFF type S_CODE_OR_DATA DB_SEG 1 DPL_KERNEL).size =
      2 ^ 32 := by
    intro type
    have hgranularity :
        (buildEntry 0 0xFFFFF type S_CODE_OR_DATA DB_SEG 1 DPL_KERNEL).granularity = 1 := rfl
    have hlimit : ((0xFFFFF : Word).setWidth 20).toNat = 1048575 := by decide
    rw [GdtEntry.size, buildEntry_limit, hlimit, if_pos hgranularity]
    norm_num
  obtain ⟨-, hcode, hdata, -⟩ := gdtInit_reserved places s
  rw [hcode, hdata, gdtMakeCodeSegment, gdtMakeDataSegment, buildEntry_base, buildEntry_base]
  exact ⟨rfl, hflat _, rfl, hflat _⟩

end Boot

section Runs

/-- An entry of the task table as exec leaves it before the switch, with a program in it. -/
structure Prepared (old task : TaskEntry) : Prop where
  status : task.status = 1
  tss : task.taskTss = old.taskTss
  selector : task.tssSelector = old.tssSelector

/-- exec fails and leaves the task table, or it switches to the first entry that is free, with
a program in it. -/
theorem exec_switches {disk : Memory} {stale : ℕ} {taskSwitch : BitVec 16 → System → System}
    {system system' : System} {filename : Memory} {ret : ℤ}
    (h : exec disk stale taskSwitch system filename = .ok (ret, system')) :
    ret = TASK_FAILURE ∧ system'.taskTable = system.taskTable ∨
    ∃ index task k, searchLoop system.taskTable (List.finRange MAX_TASK_COUNT) = some index ∧
      Prepared (system.taskTable index) task ∧
      system' = taskSwitch task.tssSelector
        { kernel := k, taskTable := Function.update system.taskTable index task } := by
  obtain ⟨stats, -, h⟩ := bind_eq_ok h
  cases stats with
  | none =>
    cases h
    exact .inl ⟨rfl, rfl⟩
  | some stats =>
    obtain ⟨⟨fd, k⟩, -, h⟩ := bind_eq_ok h
    dsimp only at h
    split at h
    · cases h
      exact .inl ⟨rfl, rfl⟩
    · rename_i index hsearch
      obtain ⟨task, hload, h⟩ := bind_eq_ok h
      obtain ⟨k', -, h⟩ := bind_eq_ok h
      cases h
      refine .inr ⟨index, task, k', hsearch, ?_, rfl⟩
      rw [loadProgram] at hload
      split at hload
      · obtain ⟨r, -, hload⟩ := bind_eq_ok hload
        cases hload
        exact ⟨rfl, rfl, rfl⟩
      · cases hload

/-- The entry of a task that has run is as before, up to its memory and its segments. -/
structure Worked (old task : TaskEntry) : Prop where
  status : task.status = old.status
  tss : task.taskTss = old.taskTss
  selector : task.tssSelector = old.tssSelector

/-- The runs of the kernel and of programs, with the tasks that wait for one they launched:
their task register, and the registers they called in. What a task does to its registers and
to the memory of tasks is left open. -/
inductive Reaches (places : Places) (s₀ : State) : List (BitVec 16 × Registers) → State → Prop
  | boot : Reaches places s₀ [] (gdtInit places s₀)
  | work {stack : List (BitVec 16 × Registers)} {s : State} (r : Registers)
      (table : Fin MAX_TASK_COUNT → TaskEntry) (h : Reaches places s₀ stack s)
      (hworked : ∀ i, Worked (s.taskTable i) (table i)) :
      Reaches places s₀ stack { s with registers := r, taskTable := table }
  | exec {stack : List (BitVec 16 × Registers)} {s s' : State} {index : Fin MAX_TASK_COUNT}
      {task : TaskEntry} (h : Reaches places s₀ stack s) (hlevel : s.registers.cs &&& 3 = 0)
      (hsearch : searchLoop s.taskTable (List.finRange MAX_TASK_COUNT) = some index)
      (hprepared : Prepared (s.taskTable index) task)
      (hswitch : taskSwitch places task.tssSelector
        { s with taskTable := Function.update s.taskTable index task } = some s') :
      Reaches places s₀ ((s.tr, atFarCall places task.tssSelector s.registers) :: stack) s'
  | iret {stack : List (BitVec 16 × Registers)} {s s' : State} (h : Reaches places s₀ stack s)
      (hiret : iretTask places s = some s') : Reaches places s₀ stack.tail s'

/-- The registers task_setup gives to a task: it starts at the beginning of its code segment,
with its stack at the end of its address space and interrupts allowed. -/
def freshRegisters : Registers where
  eip := 0
  eflags := 0x200
  eax := 0
  ecx := 0
  edx := 0
  ebx := 0
  esp := 16834
  ebp := 16834
  esi := 0
  edi := 0
  es := 0xF
  cs := 0x7
  ss := 0xF
  ds := 0xF
  fs := 0xF
  gs := 0xF

def ldtSelectorOf (i : Fin MAX_TASK_COUNT) : BitVec 16 :=
  (GDT_INDEX_TO_SELECTOR (ldtEntry i)).setWidth 16

/-- The entries that are free have not been touched since task_setup. -/
structure Untouched (s : State) (m : Machine TssName Registers) : Prop where
  idle : ∀ i, (s.taskTable i).status = 0 → m.busy (.task i) = false
  fresh : ∀ i, (s.taskTable i).status = 0 → m.saved (.task i) = freshRegisters
  selector : ∀ i, (s.taskTable i).tssSelector = selectorOf (.task i)
  ldtSelector : ∀ i, (s.taskTable i).taskTss.ldtSelector = ldtSelectorOf i

/-- The tasks that wait are those of a machine. -/
structure Sound (places : Places) (stack : List (BitVec 16 × Registers)) (s : State)
    (m : Machine TssName Registers) (frames : List (TssName × Registers)) : Prop where
  represents : Represents places s m
  linked : Frames m frames
  stack : stack = frames.map fun frame => (selectorOf frame.1, frame.2)
  untouched : Untouched s m

variable {places : Places} {s₀ s s' : State} {stack : List (BitVec 16 × Registers)}
  {m m' : Machine TssName Registers} {frames : List (TssName × Registers)}

theorem sound_gdtInit (places : Places) (s₀ : State) :
    Sound places [] (gdtInit places s₀) (firstMachine (gdtInit places s₀)) [] where
  represents := represents_gdtInit places s₀
  linked := by
    refine ⟨⟨rfl, rfl⟩, List.nodup_singleton _, fun n => ?_⟩
    change decide (n = .initial) = true ↔ n = .initial ∨ n ∈ []
    simp
  stack := rfl
  untouched := by
    constructor
    case idle => exact fun i _ => rfl
    case fresh =>
      intro i _
      change registersOf ((gdtInit places s₀).taskTable i).taskTss = freshRegisters
      rw [(gdtInit_task places s₀ i).2]
      rfl
    case selector =>
      intro i
      rw [(gdtInit_task places s₀ i).2]
      change (GDT_INDEX_TO_SELECTOR (tssEntry i)).setWidth 16 = selectorOf (.task i)
      revert i
      decide
    case ldtSelector =>
      intro i
      rw [(gdtInit_task places s₀ i).2]
      rfl

/-- The current task is busy, and not its own caller. -/
theorem frames_current (h : Frames m frames) :
    m.busy m.current = true ∧ m.link m.current ≠ some m.current := by
  refine ⟨(h.busy _).mpr (.inl rfl), ?_⟩
  obtain ⟨hlinked, hnodup, -⟩ := h
  cases frames with
  | nil =>
    rw [hlinked.2]
    simp
  | cons frame rest =>
    rw [hlinked.2.1]
    intro heq
    rw [List.nodup_cons, List.map_cons, ← Option.some.inj heq] at hnodup
    exact hnodup.1 List.mem_cons_self

/-- The registers and the memory of tasks are not in the segments. -/
theorem Represents.memory (h : Represents places s m) {table : Fin MAX_TASK_COUNT → TaskEntry}
    (htable : ∀ i, (table i).taskTss = (s.taskTable i).taskTss) (r : Registers) :
    Represents places { s with registers := r, taskTable := table } { m with context := r } := by
  have htss : ∀ n, State.tss { s with registers := r, taskTable := table } n = s.tss n := by
    intro n
    cases n with
    | initial => rfl
    | task i => exact htable i
  constructor
  case tr => exact h.tr
  case trBase => exact h.trBase
  case registers => rfl
  case saved =>
    intro n
    rw [htss]
    exact h.saved n
  case link =>
    intro n
    rw [htss]
    exact h.link n
  case descriptor => exact h.descriptor
  case null => exact h.null

/-- A task that works stays in its place. -/
theorem Sound.work (h : Sound places stack s m frames) (r : Registers)
    {table : Fin MAX_TASK_COUNT → TaskEntry} (hworked : ∀ i, Worked (s.taskTable i) (table i)) :
    Sound places stack { s with registers := r, taskTable := table } { m with context := r }
      frames where
  represents := h.represents.memory (fun i => (hworked i).tss) r
  linked := h.linked.work r
  stack := h.stack
  untouched := by
    constructor
    case idle => exact fun i hi => h.untouched.idle i ((hworked i).status ▸ hi)
    case fresh => exact fun i hi => h.untouched.fresh i ((hworked i).status ▸ hi)
    case selector => exact fun i => (hworked i).selector.trans (h.untouched.selector i)
    case ldtSelector =>
      intro i
      rw [(hworked i).tss]
      exact h.untouched.ldtSelector i

/-- exec starts a fresh task, and its caller waits. -/
theorem Sound.exec (h : Sound places stack s m frames) (hlevel : s.registers.cs &&& 3 = 0)
    {index : Fin MAX_TASK_COUNT} {task : TaskEntry}
    (hsearch : searchLoop s.taskTable (List.finRange MAX_TASK_COUNT) = some index)
    (hprepared : Prepared (s.taskTable index) task) :
    ∃ s' m', taskSwitch places task.tssSelector
        { s with taskTable := Function.update s.taskTable index task } = some s' ∧
      Sound places ((s.tr, atFarCall places task.tssSelector s.registers) :: stack) s' m'
        ((m.current, atFarCall places task.tssSelector s.registers) :: frames) ∧
      s'.registers = nested.set true freshRegisters ∧ s'.ldtr = ldtSelectorOf index ∧
      s'.tr = selectorOf (.task index) := by
  have hunused := searchLoop_some hsearch
  have hselector : task.tssSelector = selectorOf (.task index) :=
    hprepared.selector.trans (h.untouched.selector index)
  obtain ⟨m', hcall, hcurrent, hcontext, hframes, hbusy, hsaved⟩ :=
    (h.linked.work (atFarCall places task.tssSelector s.registers)).call nested
      (h.untouched.idle index hunused)
  have htable : ∀ i, (Function.update s.taskTable index task i).taskTss =
      (s.taskTable i).taskTss := by
    intro i
    rw [Function.update_apply]
    split
    · rename_i hi
      rw [hi, hprepared.tss]
    · rfl
  obtain ⟨s', hswitch, hrepresents, hkeeps, hldtr⟩ :=
    (h.represents.memory htable (atFarCall places task.tssSelector s.registers)).farCall hlevel
      (frames_current h.linked).1 hcall
  -- entries that are still free were free before
  have hfree : ∀ i, (s'.taskTable i).status = 0 → i ≠ index ∧ (s.taskTable i).status = 0 := by
    intro i hi
    rw [hkeeps.status] at hi
    dsimp only at hi
    by_cases hindex : i = index
    · rw [hindex, Function.update_self, hprepared.status] at hi
      exact absurd hi (by decide)
    · rw [Function.update_of_ne hindex] at hi
      exact ⟨hindex, hi⟩
  have hname : ∀ {i : Fin MAX_TASK_COUNT}, i ≠ index → TssName.task i ≠ TssName.task index :=
    fun hi heq => hi (TssName.task.inj heq)
  rw [hselector] at hswitch ⊢
  refine ⟨s', m', hswitch, ⟨hrepresents, ?_, ?_, ?_⟩, ?_, ?_, ?_⟩
  · rw [← hselector]
    exact hframes
  · rw [List.map_cons, h.stack, h.represents.tr]
  · constructor
    case idle =>
      intro i hi
      obtain ⟨hindex, hold⟩ := hfree i hi
      rw [hbusy _ (hname hindex)]
      exact h.untouched.idle i hold
    case fresh =>
      intro i hi
      obtain ⟨hindex, hold⟩ := hfree i hi
      have hidle := h.untouched.idle i hold
      rw [hsaved]
      · exact h.untouched.fresh i hold
      · rintro heq
        rw [heq] at hidle
        rw [show m.busy m.current = true from (frames_current h.linked).1] at hidle
        cases hidle
    case selector =>
      intro i
      rw [hkeeps.selector]
      dsimp only
      rw [Function.update_apply]
      split
      · rename_i hi
        rw [hi, hselector]
      · exact h.untouched.selector i
    case ldtSelector =>
      intro i
      refine (hkeeps.ldtSelector (.task i)).trans ?_
      change (Function.update s.taskTable index task i).taskTss.ldtSelector = ldtSelectorOf i
      rw [htable]
      exact h.untouched.ldtSelector i
  · rw [hrepresents.registers, hcontext]
    exact congrArg _ (h.untouched.fresh index hunused)
  · rw [hldtr]
    change (Function.update s.taskTable index task index).taskTss.ldtSelector = _
    rw [htable]
    exact h.untouched.ldtSelector index
  · rw [hrepresents.tr, hcurrent]

/-- A return wakes the task that waits last. -/
theorem Sound.iret {frame : TssName × Registers} (h : Sound places stack s m (frame :: frames))
    (hnested : nested.get s.registers = true) :
    ∃ s' m', iretTask places s = some s' ∧ Sound places stack.tail s' m' frames ∧
      stack.head? = some (s'.tr, s'.registers) := by
  rw [h.represents.registers] at hnested
  obtain ⟨m', hret, hcurrent, hcontext, hframes, hbusy, hsaved⟩ := h.linked.ret nested hnested
  obtain ⟨s', hiret, hrepresents, hkeeps⟩ :=
    h.represents.iretTask (frames_current h.linked).2 hret
  have hname : ∀ i, (s.taskTable i).status = 0 → TssName.task i ≠ m.current := by
    intro i hi heq
    have hidle := h.untouched.idle i hi
    rw [heq, (frames_current h.linked).1] at hidle
    cases hidle
  refine ⟨s', m', hiret, ⟨hrepresents, hframes, ?_, ?_⟩, ?_⟩
  · rw [h.stack, List.map_cons, List.tail_cons]
  · constructor
    case idle =>
      intro i hi
      rw [hkeeps.status] at hi
      rw [hbusy _ (hname i hi)]
      exact h.untouched.idle i hi
    case fresh =>
      intro i hi
      rw [hkeeps.status] at hi
      rw [hsaved _ (hname i hi)]
      exact h.untouched.fresh i hi
    case selector =>
      intro i
      rw [hkeeps.selector]
      exact h.untouched.selector i
    case ldtSelector =>
      exact fun i => (hkeeps.ldtSelector (.task i)).trans (h.untouched.ldtSelector i)
  · rw [h.stack, List.map_cons, List.head?_cons, hrepresents.tr, hrepresents.registers, hcurrent,
      hcontext]

/-- The first task has no link: the selector 0 is that of the null descriptor. -/
theorem Sound.iret_first (h : Sound places stack s m []) : iretTask places s = none := by
  have hlink : (s.tss m.current).previousTaskLink = 0 := by
    rw [h.represents.link, h.linked.linked.2]
    rfl
  have hnull : ¬ IsTss (s.gdtTable ⟨0, by decide⟩) TYPE_TSS_BUSY := by
    rw [h.represents.null]
    decide
  rw [iretTask]
  split
  · rw [h.represents.trBase, resolve_addressOf]
    simp only [Option.bind_eq_bind, Option.bind_some]
    rw [hlink, show entryIndex 0 = some ⟨0, by decide⟩ from rfl]
    exact if_neg hnull
  · rfl

/-- In every state reached the segments are those of a machine. -/
theorem Reaches.sound (h : Reaches places s₀ stack s) :
    ∃ m frames, Sound places stack s m frames := by
  induction h with
  | boot => exact ⟨_, _, sound_gdtInit places s₀⟩
  | work r table _ hworked ih =>
    obtain ⟨m, frames, hsound⟩ := ih
    exact ⟨_, _, hsound.work r hworked⟩
  | exec _ hlevel hsearch hprepared hswitch ih =>
    obtain ⟨m, frames, hsound⟩ := ih
    obtain ⟨s', m', hswitch', hsound', -⟩ := hsound.exec hlevel hsearch hprepared
    rw [hswitch] at hswitch'
    cases hswitch'
    exact ⟨_, _, hsound'⟩
  | iret _ hiret ih =>
    obtain ⟨m, frames, hsound⟩ := ih
    cases frames with
    | nil =>
      rw [hsound.iret_first] at hiret
      cases hiret
    | cons frame rest =>
      have hnested := hiret
      rw [iretTask] at hnested
      split at hnested
      · rename_i hflag
        obtain ⟨s', m', hiret', hsound', -⟩ := hsound.iret hflag
        rw [hiret] at hiret'
        cases hiret'
        exact ⟨_, _, hsound'⟩
      · cases hnested

/-- The running task and those that wait are all different. -/
theorem Sound.distinct (h : Sound places stack s m frames) :
    (s.tr :: stack.map Prod.fst).Nodup := by
  have hselectors : s.tr :: stack.map Prod.fst =
      (m.current :: frames.map Prod.fst).map selectorOf := by
    rw [h.represents.tr, h.stack, List.map_map, List.map_cons, List.map_map]
    rfl
  rw [hselectors]
  refine h.linked.nodup.map fun n n' hselector => ?_
  have hindex := congrArg entryIndex hselector
  rw [entryIndex_selectorOf, entryIndex_selectorOf] at hindex
  exact entryOf_inj (Option.some.inj hindex)

/-- What exec and iret do in a state, with these tasks waiting. -/
structure Switches (places : Places) (stack : List (BitVec 16 × Registers)) (s : State) :
    Prop where
  distinct : (s.tr :: stack.map Prod.fst).Nodup
  exec : s.registers.cs &&& 3 = 0 →
    ∀ (disk : Memory) (stale : ℕ) (resume : BitVec 16 → System → System) (k : Kernel)
      (filename : Memory) (ret : ℤ) (system : System),
      Launches.exec disk stale resume ⟨k, s.taskTable⟩ filename = .ok (ret, system) →
      ret = TASK_FAILURE ∧ system.taskTable = s.taskTable ∨
      ∃ index task k' s',
        searchLoop s.taskTable (List.finRange MAX_TASK_COUNT) = some index ∧
        Prepared (s.taskTable index) task ∧
        system = resume task.tssSelector ⟨k', Function.update s.taskTable index task⟩ ∧
        taskSwitch places task.tssSelector
          { s with taskTable := Function.update s.taskTable index task } = some s' ∧
        s'.registers = nested.set true freshRegisters ∧ s'.ldtr = ldtSelectorOf index ∧
        s'.tr = selectorOf (.task index)
  iret : nested.get s.registers = true → stack.head? =
    (iretTask places s).map fun s' => (s'.tr, s'.registers)

/-- In every run exec starts its program as task_setup says, in a task that neither runs nor
waits, and a program that returns goes back to the one that launched it last and still waits,
which goes on with the registers it called in. -/
theorem reaches_switches (h : Reaches places s₀ stack s) : Switches places stack s := by
  obtain ⟨m, frames, hsound⟩ := h.sound
  constructor
  case distinct => exact hsound.distinct
  case exec =>
    intro hlevel disk stale resume k filename ret system hexec
    obtain hfails | ⟨index, task, k', hsearch, hprepared, hsystem⟩ := exec_switches hexec
    · exact .inl hfails
    · obtain ⟨s', -, hswitch, -, hregisters, hldtr, htr⟩ :=
        hsound.exec hlevel hsearch hprepared
      exact .inr ⟨index, task, k', s', hsearch, hprepared, hsystem, hswitch, hregisters, hldtr,
        htr⟩
  case iret =>
    intro hnested
    cases frames with
    | nil =>
      rw [hsound.iret_first, hsound.stack]
      rfl
    | cons frame rest =>
      obtain ⟨s', -, hiret, -, hhead⟩ := hsound.iret hnested
      rw [hiret, hhead]
      rfl

/-- Nothing is set up yet. -/
def zeroState : State where
  registers := { freshRegisters with cs := 8 }
  ldtr := 0
  tr := 0
  trBase := 0
  gdtTable := TaskSegments.zeroTables.gdtTable
  initialTss := Tss.zero
  taskTable := TaskSegments.zeroTables.taskTable

/-- The task table at 1 MB, and the other tables behind it. -/
def examplePlaces : Places where
  placement := TaskSegments.examplePlacement
  initialTss := 0x400000
  initialTssKernelStack := 0x401000
  tssSelSeg := 0x403000
  apart := by decide

/-- The first program that is launched returns to the kernel. -/
theorem reaches_switches_first : ∃ s task,
    taskSwitch examplePlaces (selectorOf (.task ⟨0, by decide⟩))
      { gdtInit examplePlaces zeroState with
        taskTable := Function.update (gdtInit examplePlaces zeroState).taskTable
          ⟨0, by decide⟩ task } = some s ∧
    (iretTask examplePlaces s).map (fun s' => (s'.tr, s'.registers)) =
      some (selectorOf .initial,
        atFarCall examplePlaces (selectorOf (.task ⟨0, by decide⟩)) zeroState.registers) := by
  have hboot := sound_gdtInit examplePlaces zeroState
  have hsearch : searchLoop (gdtInit examplePlaces zeroState).taskTable
      (List.finRange MAX_TASK_COUNT) = some ⟨0, by decide⟩ := by
    have hstatus : ((gdtInit examplePlaces zeroState).taskTable ⟨0, by decide⟩).status = 0 := by
      rw [(gdtInit_task examplePlaces zeroState _).2]
      rfl
    change searchLoop _ (⟨0, by decide⟩ :: _) = _
    rw [searchLoop, if_neg (not_not.mpr hstatus)]
  have hprepared : Prepared ((gdtInit examplePlaces zeroState).taskTable ⟨0, by decide⟩)
      { (gdtInit examplePlaces zeroState).taskTable ⟨0, by decide⟩ with status := 1 } :=
    ⟨rfl, rfl, rfl⟩
  have hselector := hboot.untouched.selector ⟨0, by decide⟩
  have hlevel : (gdtInit examplePlaces zeroState).registers.cs &&& 3 = 0 := by decide
  obtain ⟨s, m, hswitch, -, hregisters, -, -⟩ := hboot.exec hlevel hsearch hprepared
  have hnested : nested.get s.registers = true := by
    rw [hregisters]
    decide
  have hreturns :=
    (reaches_switches (.exec .boot hlevel hsearch hprepared hswitch)).iret hnested
  dsimp only at hswitch hreturns
  rw [hselector] at hswitch hreturns
  refine ⟨s, _, hswitch, hreturns.symm.trans ?_⟩
  rw [List.head?_cons, hboot.represents.tr]
  rfl

end Runs

end RathalOS.TaskCalls
