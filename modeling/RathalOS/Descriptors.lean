import RathalOS.ByteMemory

/-!
Segment descriptors of kernel/gdt/gdt.c. The base of a segment is stored in
three parts, which build_entry cuts out of a 32-bit address and which are put
together again where the base is needed.
-/
namespace RathalOS.Descriptors

abbrev Word := BitVec 32

/-- `gdt_entry_t`. -/
structure GdtEntry where
  lim15_0 : BitVec 16
  base15_0 : BitVec 16
  base23_16 : BitVec 8
  type : BitVec 4
  s : BitVec 1
  dpl : BitVec 2
  present : BitVec 1
  lim19_16 : BitVec 4
  avl : BitVec 1
  l : BitVec 1
  db : BitVec 1
  granularity : BitVec 1
  base31_24 : BitVec 8

def buildEntry (base limit : Word) (type s db granularity dpl : BitVec 8) : GdtEntry where
  lim15_0 := (limit &&& 0xffff).setWidth 16
  base15_0 := (base &&& 0xffff).setWidth 16
  base23_16 := ((base >>> 16) &&& 0xff).setWidth 8
  type := type.setWidth 4
  s := s.setWidth 1
  dpl := dpl.setWidth 2
  present := 1
  lim19_16 := ((limit >>> 16) &&& 0xf).setWidth 4
  avl := 0
  l := 0
  db := db.setWidth 1
  granularity := granularity.setWidth 1
  base31_24 := ((base >>> 24) &&& 0xff).setWidth 8

def TYPE_DATA_READWRITE : BitVec 8 := 3
def TYPE_CODE_EXECREAD : BitVec 8 := 11
def TYPE_LDT : BitVec 8 := 2
def TYPE_TSS : BitVec 8 := 9
def S_CODE_OR_DATA : BitVec 8 := 1
def S_SYSTEM : BitVec 8 := 0
def DB_SEG : BitVec 8 := 1
def DB_SYS : BitVec 8 := 0
def DPL_USER : BitVec 8 := 3
def DPL_KERNEL : BitVec 8 := 0

def gdtMakeNullSegment : GdtEntry := ⟨0, 0, 0, 0, 0, 0, 0, 0, 0, 0, 0, 0, 0⟩

def gdtMakeCodeSegment (base limit : Word) (dpl : BitVec 8) : GdtEntry :=
  buildEntry base limit TYPE_CODE_EXECREAD S_CODE_OR_DATA DB_SEG 1 dpl

def gdtMakeDataSegment (base limit : Word) (dpl : BitVec 8) : GdtEntry :=
  buildEntry base limit TYPE_DATA_READWRITE S_CODE_OR_DATA DB_SEG 1 dpl

def gdtMakeLdt (base limit : Word) (dpl : BitVec 8) : GdtEntry :=
  buildEntry base limit TYPE_LDT S_SYSTEM DB_SYS 0 dpl

/-- The base as syscall_handler puts it together. -/
def GdtEntry.base (descriptor : GdtEntry) : Word :=
  descriptor.base31_24.setWidth 32 <<< 24 ||| descriptor.base23_16.setWidth 32 <<< 16 |||
    descriptor.base15_0.setWidth 32

def GdtEntry.limit (descriptor : GdtEntry) : BitVec 20 :=
  descriptor.lim19_16.setWidth 20 <<< 16 ||| descriptor.lim15_0.setWidth 20

/-- The number of bytes of a segment: the limit is that of the last byte or page. -/
def GdtEntry.size (descriptor : GdtEntry) : ℕ :=
  (descriptor.limit.toNat + 1) * if descriptor.granularity = 1 then 4096 else 1

/-- A byte can be addressed through the descriptor. -/
def GdtEntry.Reaches (descriptor : GdtEntry) (a : ℕ) : Prop :=
  descriptor.base.toNat ≤ a ∧ a < descriptor.base.toNat + descriptor.size

theorem GdtEntry.reaches_base (descriptor : GdtEntry) :
    descriptor.Reaches descriptor.base.toNat := by
  refine ⟨Nat.le_refl _, ?_⟩
  rw [GdtEntry.size]
  split <;> omega

theorem buildEntry_base (base limit : Word) (type s db granularity dpl : BitVec 8) :
    (buildEntry base limit type s db granularity dpl).base = base := by
  apply BitVec.eq_of_getLsbD_eq
  intro i hi
  simp only [GdtEntry.base, buildEntry]
  interval_cases i <;> simp

/-- The limit is stored in two parts, and only its low 20 bits. -/
theorem buildEntry_limit (base limit : Word) (type s db granularity dpl : BitVec 8) :
    (buildEntry base limit type s db granularity dpl).limit = limit.setWidth 20 := by
  apply BitVec.eq_of_getLsbD_eq
  intro i hi
  simp only [GdtEntry.limit, buildEntry]
  interval_cases i <;> simp

end RathalOS.Descriptors
