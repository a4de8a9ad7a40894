import RathalOS.BitFields
import RathalOS.Descriptors

/-!
The eight bytes of a segment descriptor, kernel/gdt/gdt.h. The structure is packed: each
field begins at the bit where the one before it ends. What build_entry stores there field
by field is read back unchanged, and its base and limit are put together again.
-/
namespace RathalOS.PackedDescriptors

open BitFields Descriptors

/-- The fields of `gdt_entry_t`. -/
inductive EntryField
  | lim15_0
  | base15_0
  | base23_16
  | type
  | s
  | dpl
  | present
  | lim19_16
  | avl
  | l
  | db
  | granularity
  | base31_24
  deriving DecidableEq

namespace EntryField

/-- The order of the declaration, in which build_entry also sets them. -/
def order : List EntryField :=
  [lim15_0, base15_0, base23_16, type, s, dpl, present, lim19_16, avl, l, db, granularity,
    base31_24]

def width : EntryField → ℕ
  | lim15_0 => 16
  | base15_0 => 16
  | base23_16 => 8
  | type => 4
  | s => 1
  | dpl => 2
  | present => 1
  | lim19_16 => 4
  | avl => 1
  | l => 1
  | db => 1
  | granularity => 1
  | base31_24 => 8

def offset (f : EntryField) : ℕ := ((order.takeWhile fun g => decide (g ≠ f)).map width).sum

theorem mem_order (f : EntryField) : f ∈ order := by
  cases f <;> decide

end EntryField

/-- The layout of an entry in a word whose lowest byte is the first. -/
def layout : Layout 64 EntryField where
  field f :=
    { offset := f.offset
      width := f.width
      fits := by cases f <;> decide }
  apart i j h := by
    cases i <;> cases j <;> first | exact absurd rfl h | decide

/-- The fields fill the eight bytes. -/
theorem layout_covers : layout.Covers := by
  have hall : ∀ k < 64, EntryField.order.any fun f => decide ((layout.field f).Contains k) := by
    decide
  intro k hk
  obtain ⟨f, -, hf⟩ := List.any_eq_true.mp (hall k hk)
  exact ⟨f, of_decide_eq_true hf⟩

/-- The values of the fields of an entry. -/
def record (entry : GdtEntry) : layout.Record
  | .lim15_0 => entry.lim15_0
  | .base15_0 => entry.base15_0
  | .base23_16 => entry.base23_16
  | .type => entry.type
  | .s => entry.s
  | .dpl => entry.dpl
  | .present => entry.present
  | .lim19_16 => entry.lim19_16
  | .avl => entry.avl
  | .l => entry.l
  | .db => entry.db
  | .granularity => entry.granularity
  | .base31_24 => entry.base31_24

/-- The entry variable of build_entry, which is not initialised, after its assignments. -/
def stored (entry : GdtEntry) (memory : BitVec 64) : BitVec 64 :=
  layout.store (record entry) EntryField.order memory

/-- The entry that eight bytes of the table are. -/
def loaded (memory : BitVec 64) : GdtEntry where
  lim15_0 := layout.load memory .lim15_0
  base15_0 := layout.load memory .base15_0
  base23_16 := layout.load memory .base23_16
  type := layout.load memory .type
  s := layout.load memory .s
  dpl := layout.load memory .dpl
  present := layout.load memory .present
  lim19_16 := layout.load memory .lim19_16
  avl := layout.load memory .avl
  l := layout.load memory .l
  db := layout.load memory .db
  granularity := layout.load memory .granularity
  base31_24 := layout.load memory .base31_24

theorem loaded_stored (entry : GdtEntry) (memory : BitVec 64) :
    loaded (stored entry memory) = entry := by
  have hload : layout.load (stored entry memory) = record entry :=
    layout.load_store (record entry) EntryField.mem_order memory
  rw [loaded, hload]
  rfl

/-- Nothing is left of what the variable held before. -/
theorem stored_eq (entry : GdtEntry) (memory memory' : BitVec 64) :
    stored entry memory = stored entry memory' :=
  layout.store_eq layout_covers (record entry) EntryField.mem_order memory memory'

/-- What an entry says of its segment, as the handler of the system calls puts the base
together. -/
structure Describes (entry : GdtEntry) (base : Word) (limit : BitVec 20) (dpl : BitVec 2) :
    Prop where
  base : entry.base = base
  limit : entry.limit = limit
  dpl : entry.dpl = dpl

/-- Every entry that build_entry stores is read back with its base, limit and level. -/
theorem describes_stored (base : Word) (limit : BitVec 20) (type s db granularity : BitVec 8)
    (dpl : BitVec 2) (memory : BitVec 64) :
    Describes (loaded (stored (buildEntry base (limit.setWidth 32) type s db granularity
      (dpl.setWidth 8)) memory)) base limit dpl := by
  rw [loaded_stored]
  constructor
  · exact buildEntry_base base _ type s db granularity _
  · rw [buildEntry_limit, BitVec.setWidth_setWidth_of_le limit (by decide), BitVec.setWidth_eq]
  · change (dpl.setWidth 8).setWidth 2 = dpl
    rw [BitVec.setWidth_setWidth_of_le dpl (by decide), BitVec.setWidth_eq]

/-- The descriptors of all segments decode to the base, the limit and the privilege level
they were made for; no field is altered by setting another one, and together the fields
determine the eight bytes. -/
theorem descriptors_decode (base : Word) (limit : BitVec 20) (dpl : BitVec 2)
    (memory : BitVec 64) :
    Describes (loaded (stored
        (gdtMakeCodeSegment base (limit.setWidth 32) (dpl.setWidth 8)) memory)) base limit dpl ∧
      Describes (loaded (stored
        (gdtMakeDataSegment base (limit.setWidth 32) (dpl.setWidth 8)) memory)) base limit dpl ∧
      Describes (loaded (stored
        (gdtMakeLdt base (limit.setWidth 32) (dpl.setWidth 8)) memory)) base limit dpl ∧
      (∀ f g, f ≠ g → ∀ value word, (layout.field g).get ((layout.field f).set value word) =
        (layout.field g).get word) ∧
      ∀ entry memory', stored entry memory = stored entry memory' := by
  refine ⟨?_, ?_, ?_, fun f g hfg => layout.get_set_of_ne hfg,
    fun entry => stored_eq entry memory⟩
  · exact describes_stored base limit _ _ _ _ dpl memory
  · exact describes_stored base limit _ _ _ _ dpl memory
  · exact describes_stored base limit _ _ _ _ dpl memory

end RathalOS.PackedDescriptors
