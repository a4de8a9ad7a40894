import RathalOS.BitFields
import RathalOS.InterruptStubs
import Mathlib.Logic.Function.Basic

/-!
The interrupt descriptor table, idt_init of kernel/idt/idt.c. The table is a local array, of
which memset clears the first entry only; 38 entries are then set, and the others stay what
the stack held. The processor reads the offset of a gate from two of its fields.
-/
namespace RathalOS.InterruptTable

open BitFields MemoryStacks InterruptStubs

/-- The fields of `idt_entry_t`. -/
inductive EntryField
  | offset15_0
  | selector
  | reserved
  | type
  | dpl
  | p
  | offset31_16
  deriving DecidableEq

namespace EntryField

/-- The order of the declaration, in which idt_build_entry also sets them. -/
def order : List EntryField := [offset15_0, selector, reserved, type, dpl, p, offset31_16]

def width : EntryField → ℕ
  | offset15_0 => 16
  | selector => 16
  | reserved => 8
  | type => 5
  | dpl => 2
  | p => 1
  | offset31_16 => 16

def offset (f : EntryField) : ℕ := ((order.takeWhile fun g => decide (g ≠ f)).map width).sum

theorem mem_order (f : EntryField) : f ∈ order := by
  cases f <;> decide

end EntryField

/-- The layout of an entry in a word whose lowest byte is the first. -/
def layout : Layout 64 EntryField where
  field f :=
    { offset := f.offset
      width := f.width
      fits := by cases f <;> decide }
  apart i j h := by
    cases i <;> cases j <;> first | exact absurd rfl h | decide

def GDT_KERNEL_CODE_SELECTOR : Selector := 0x08
def TYPE_INTERRUPT_GATE : BitVec 8 := 14
def TYPE_TRAP_GATE : BitVec 8 := 15
def DPL_USER : BitVec 8 := 3
def DPL_KERNEL : BitVec 8 := 0

/-- The assignments of idt_build_entry, to bit fields of the value's low bits. -/
def record (selector : Selector) (offset : Word) (type dpl : BitVec 8) : layout.Record
  | .offset15_0 => (offset &&& 0xffff).setWidth 16
  | .selector => selector
  | .reserved => (0 : BitVec 8)
  | .type => type.setWidth 5
  | .dpl => dpl.setWidth 2
  | .p => (1 : BitVec 1)
  | .offset31_16 => ((offset >>> 16) &&& 0xffff).setWidth 16

/-- The variable entry is not initialised. -/
def idtBuildEntry (uninitialised : BitVec 64) (selector : Selector) (offset : Word)
    (type dpl : BitVec 8) : BitVec 64 :=
  layout.store (record selector offset type dpl) EntryField.order uninitialised

/-- Where the stubs are. -/
structure Addresses where
  exception : Fin 21 → Word
  irq : Fin 16 → Word
  syscallHandler : Word

/-- The table, by vector. -/
abbrev Table := BitVec 8 → BitVec 64

/-- The assignments to consecutive entries of the table. -/
def setEntries {n : ℕ} (first : ℕ) (entry : Fin n → BitVec 64) (idt : Table) : Table :=
  (List.finRange n).foldl
    (fun idt (i : Fin n) => Function.update idt (BitVec.ofNat 8 (first + i)) (entry i)) idt

/-- The assignments of idt_init to the array, which holds anything when it begins, and so
does the variable of idt_build_entry at each call. -/
def idtInit (addresses : Addresses) (uninitialised : BitVec 8 → BitVec 64) (idt : Table) : Table :=
  let entry := fun (vector : ℕ) offset => idtBuildEntry (uninitialised (BitVec.ofNat 8 vector))
    GDT_KERNEL_CODE_SELECTOR offset TYPE_INTERRUPT_GATE DPL_KERNEL
  let idt := Function.update idt 0 0
  let idt := setEntries 0 (fun i => entry i (addresses.exception i)) idt
  let idt := setEntries 32 (fun i => entry (32 + i) (addresses.irq i)) idt
  Function.update idt 48 (idtBuildEntry (uninitialised 48) GDT_KERNEL_CODE_SELECTOR
    addresses.syscallHandler TYPE_TRAP_GATE DPL_USER)

/-- How the processor reads an entry: the gate, and the privilege level that a program needs to
raise the interrupt itself. There is none if the entry is not present or no gate of the two
types. The type includes the bit that is 0 for gates. -/
def decode (entry : BitVec 64) : Option (Gate × BitVec 2) :=
  let p : BitVec 1 := layout.load entry .p
  let type : BitVec 5 := layout.load entry .type
  if p = 0 then none
  else if type ≠ 14 ∧ type ≠ 15 then none
  else
    some (⟨layout.load entry .offset31_16 ++ layout.load entry .offset15_0,
      layout.load entry .selector, decide (type = 14)⟩, layout.load entry .dpl)

section Entries

variable {n : ℕ} {first : ℕ} {entry : Fin n → BitVec 64} {idt : Table} {v : BitVec 8}

theorem foldl_update_of_ne {l : List (Fin n)}
    (h : ∀ i ∈ l, v ≠ BitVec.ofNat 8 (first + i)) :
    l.foldl (fun idt (i : Fin n) =>
        Function.update idt (BitVec.ofNat 8 (first + i)) (entry i)) idt v =
      idt v := by
  induction l generalizing idt with
  | nil => rfl
  | cons j rest ih =>
    rw [List.foldl_cons, ih fun i hi => h i (List.mem_cons_of_mem j hi),
      Function.update_of_ne (h j List.mem_cons_self)]

theorem ofNat_eq_iff (hbound : first + n ≤ 256) (i : Fin n) :
    v = BitVec.ofNat 8 (first + i) ↔ v.toNat = first + i := by
  have hi := i.isLt
  rw [← BitVec.toNat_inj, BitVec.toNat_ofNat, Nat.mod_eq_of_lt (by omega)]

theorem foldl_update_of_eq (hbound : first + n ≤ 256) {l : List (Fin n)} {i : Fin n} (hi : i ∈ l)
    (hv : v.toNat = first + i) :
    l.foldl (fun idt (i : Fin n) =>
        Function.update idt (BitVec.ofNat 8 (first + i)) (entry i)) idt v =
      entry i := by
  induction l generalizing idt with
  | nil => exact absurd hi List.not_mem_nil
  | cons j rest ih =>
    rw [List.foldl_cons]
    by_cases hrest : i ∈ rest
    · exact ih hrest
    · have hij : i = j := (List.mem_cons.mp hi).resolve_right hrest
      subst hij
      rw [foldl_update_of_ne fun k hk heq => ?_, (ofNat_eq_iff hbound i).mpr hv,
        Function.update_self]
      rw [ofNat_eq_iff hbound] at heq
      have hki : k = i := Fin.ext (by omega)
      exact hrest (hki ▸ hk)

theorem setEntries_of_eq (hbound : first + n ≤ 256) (i : Fin n) (hv : v.toNat = first + i) :
    setEntries first entry idt v = entry i :=
  foldl_update_of_eq hbound (List.mem_finRange i) hv

theorem setEntries_of_outside (hbound : first + n ≤ 256)
    (hv : v.toNat < first ∨ first + n ≤ v.toNat) : setEntries first entry idt v = idt v := by
  refine foldl_update_of_ne fun i _ heq => ?_
  rw [ofNat_eq_iff hbound] at heq
  have hi := i.isLt
  omega

/-- What the processor reads is what idt_build_entry was given. -/
theorem decode_idtBuildEntry (uninitialised : BitVec 64) (selector : Selector) (offset : Word)
    {type : BitVec 8} (htype : type = TYPE_INTERRUPT_GATE ∨ type = TYPE_TRAP_GATE)
    (dpl : BitVec 8) :
    decode (idtBuildEntry uninitialised selector offset type dpl) =
      some (⟨offset, selector, decide (type = TYPE_INTERRUPT_GATE)⟩, dpl.setWidth 2) := by
  have hload : layout.load (idtBuildEntry uninitialised selector offset type dpl) =
      record selector offset type dpl :=
    layout.load_store (record selector offset type dpl) EntryField.mem_order uninitialised
  have hoffset : (((offset >>> 16) &&& 0xffff).setWidth 16 ++ (offset &&& 0xffff).setWidth 16 :
      BitVec 32) = offset := by
    have hmask : ∀ x : Word, (x &&& 0xffff).setWidth 16 = x.setWidth 16 := by
      intro x
      rw [BitVec.setWidth_and]
      exact BitVec.and_allOnes
    rw [hmask, hmask]
    apply BitVec.eq_of_getLsbD_eq
    intro i hi
    rw [BitVec.getLsbD_append]
    by_cases hlow : i < 16
    · rw [if_pos hlow, BitVec.getLsbD_setWidth, decide_eq_true hlow, Bool.true_and]
    · have hhigh : i - 16 < 16 := by omega
      rw [if_neg hlow, BitVec.getLsbD_setWidth, BitVec.getLsbD_ushiftRight, decide_eq_true hhigh,
        Bool.true_and, Nat.add_sub_cancel' (by omega)]
  unfold decode
  rw [hload]
  rcases htype with rfl | rfl
  · change some ((⟨((offset >>> 16) &&& 0xffff).setWidth 16 ++ (offset &&& 0xffff).setWidth 16,
      selector, true⟩ : Gate), dpl.setWidth 2) = _
    rw [hoffset]
    rfl
  · change some ((⟨((offset >>> 16) &&& 0xffff).setWidth 16 ++ (offset &&& 0xffff).setWidth 16,
      selector, false⟩ : Gate), dpl.setWidth 2) = _
    rw [hoffset]
    rfl

end Entries

section Table

variable (addresses : Addresses) (uninitialised : BitVec 8 → BitVec 64) (idt : Table)

/-- What the processor finds for a vector, if idt_init determines it. -/
def expected (addresses : Addresses) (v : BitVec 8) : Option (Gate × BitVec 2) :=
  if h : v.toNat < 21 then
    some (⟨addresses.exception ⟨v.toNat, h⟩, GDT_KERNEL_CODE_SELECTOR, true⟩, 0)
  else if h : 32 ≤ v.toNat ∧ v.toNat < 48 then
    some (⟨addresses.irq ⟨v.toNat - 32, by omega⟩, GDT_KERNEL_CODE_SELECTOR, true⟩, 0)
  else if v = 48 then some (⟨addresses.syscallHandler, GDT_KERNEL_CODE_SELECTOR, false⟩, 3)
  else none

/-- The vectors whose entries idt_init sets. -/
def Assigned (v : BitVec 8) : Prop := v.toNat < 21 ∨ 32 ≤ v.toNat ∧ v.toNat ≤ 48

instance (v : BitVec 8) : Decidable (Assigned v) := by
  unfold Assigned
  infer_instance

theorem idtInit_exception (i : Fin 21) {v : BitVec 8} (hv : v.toNat = i) :
    decode (idtInit addresses uninitialised idt v) =
      some (⟨addresses.exception i, GDT_KERNEL_CODE_SELECTOR, true⟩, 0) := by
  have hi := i.isLt
  have hne : v ≠ 48 := by
    rintro rfl
    simp at hv
    omega
  unfold idtInit
  rw [Function.update_of_ne hne, setEntries_of_outside (by omega) (by omega),
    setEntries_of_eq (by omega) i (by omega), decode_idtBuildEntry _ _ _ (.inl rfl)]
  rfl

theorem idtInit_irq (i : Fin 16) {v : BitVec 8} (hv : v.toNat = 32 + i) :
    decode (idtInit addresses uninitialised idt v) =
      some (⟨addresses.irq i, GDT_KERNEL_CODE_SELECTOR, true⟩, 0) := by
  have hi := i.isLt
  have hne : v ≠ 48 := by
    rintro rfl
    simp at hv
    omega
  unfold idtInit
  rw [Function.update_of_ne hne, setEntries_of_eq (by omega) i hv,
    decode_idtBuildEntry _ _ _ (.inl rfl)]
  rfl

theorem idtInit_syscall : decode (idtInit addresses uninitialised idt 48) =
    some (⟨addresses.syscallHandler, GDT_KERNEL_CODE_SELECTOR, false⟩, 3) := by
  unfold idtInit
  rw [Function.update_self, decode_idtBuildEntry _ _ _ (.inr rfl)]
  rfl

/-- The other entries are what the array held. -/
theorem idtInit_of_not_assigned {v : BitVec 8} (h : ¬ Assigned v) :
    idtInit addresses uninitialised idt v = idt v := by
  unfold Assigned at h
  have hne : v ≠ 48 := by
    rintro rfl
    simp at h
  have hzero : v ≠ 0 := by
    rintro rfl
    simp at h
  unfold idtInit
  rw [Function.update_of_ne hne, setEntries_of_outside (by omega) (by omega),
    setEntries_of_outside (by omega) (by omega), Function.update_of_ne hzero]

theorem decode_of_assigned {v : BitVec 8} (h : Assigned v) :
    decode (idtInit addresses uninitialised idt v) = expected addresses v := by
  unfold expected
  split
  · rename_i hlow
    exact idtInit_exception addresses uninitialised idt ⟨v.toNat, hlow⟩ rfl
  · split
    · rename_i hirq
      exact idtInit_irq addresses uninitialised idt ⟨v.toNat - 32, by omega⟩
        (Nat.add_sub_cancel' hirq.1).symm
    · have hv : v = 48 := by
        unfold Assigned at h
        exact BitVec.eq_of_toNat_eq (show v.toNat = 48 by omega)
      subst hv
      rw [if_pos rfl]
      exact idtInit_syscall addresses uninitialised idt

/-- Code at this privilege level can raise the interrupt itself. -/
def MayRaise (idt : Table) (cpl : BitVec 2) (v : BitVec 8) : Prop :=
  ∃ gate dpl, decode (idt v) = some (gate, dpl) ∧ cpl ≤ dpl

/-- Every vector idt_init sets goes to its own stub in the code segment of the kernel, and a
program can raise none of them but the system call. The others stay what the stack happened
to hold, memset does not reach them: a program can raise those that hold a gate open to it. -/
theorem idtInit_gates :
    (∀ v, Assigned v → decode (idtInit addresses uninitialised idt v) = expected addresses v) ∧
      (∀ v, ¬ Assigned v → decode (idtInit addresses uninitialised idt v) = decode (idt v)) ∧
      ∀ v, MayRaise (idtInit addresses uninitialised idt) 3 v ↔
        v = 48 ∨ ¬ Assigned v ∧ MayRaise idt 3 v := by
  refine ⟨fun v => decode_of_assigned addresses uninitialised idt,
    fun v h => congrArg decode (idtInit_of_not_assigned addresses uninitialised idt h),
    fun v => ?_⟩
  by_cases h : Assigned v
  · have hdecode := decode_of_assigned addresses uninitialised idt h
    constructor
    · rintro ⟨gate, dpl, hsome, hle⟩
      rw [hdecode] at hsome
      unfold expected at hsome
      split at hsome
      · cases hsome
        exact absurd hle (by decide)
      · split at hsome
        · cases hsome
          exact absurd hle (by decide)
        · split at hsome
          · exact .inl ‹_›
          · cases hsome
    · rintro (rfl | ⟨hnot, -⟩)
      · exact ⟨_, 3, idtInit_syscall addresses uninitialised idt, by decide⟩
      · exact absurd h hnot
  · have hne : v ≠ 48 := by
      rintro rfl
      exact h (by decide)
    unfold MayRaise
    rw [idtInit_of_not_assigned addresses uninitialised idt h]
    exact ⟨fun hraise => .inr ⟨h, hraise⟩, fun hor => (hor.resolve_left hne).2⟩

end Table

end RathalOS.InterruptTable
