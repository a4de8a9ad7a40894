import RathalOS.FileAccess
import RathalOS.Ownership

/-!
What an image stores and when it is well formed. The views of an image read its
bytes at the places the superblock assigns: bits of the two bitmaps, inodes,
data blocks, and the pointers of a file. An image is consistent when the regions
of tools/fs.h follow one another, the inode bitmap agrees with the inode table
and the data bitmap with the blocks the live files own; it is well formed when
moreover names differ and every file has exactly the blocks its size needs.
-/
namespace RathalOS.Images

open ByteMemory ByteFile Blocks Bitmaps CStrings Superblocks Inodes FileAccess FirstFit Ownership

/-- The regions of tools/fs.h in order, each long enough for what it stores. -/
structure Layout (sb : Superblock) : Prop where
  blockSize_mem : sb.blockSize ∈ blockSizes
  inodeBitmap_after : 1 ≤ sb.inodeBitmapStart
  datablockBitmap_after :
    sb.inodeBitmapStart + sb.inodeBitmapBlockCount ≤ sb.datablockBitmapStart
  inodes_after : sb.datablockBitmapStart + sb.datablockBitmapBlockCount ≤ sb.inodeStart
  datablocks_after : sb.inodeStart + sb.inodeBlockCount ≤ sb.datablocksStart
  inodeBitmap_fits : (sb.inodeCount + 7) / 8 ≤ sb.inodeBitmapBlockCount * sb.blockSize
  datablockBitmap_fits :
    (sb.datablockCount + 7) / 8 ≤ sb.datablockBitmapBlockCount * sb.blockSize
  inodes_fit : sb.inodeCount * inodeSize ≤ sb.inodeBlockCount * sb.blockSize
  within : (sb.datablocksStart + sb.datablockCount) * sb.blockSize ≤ 2 ^ 31
  inodeCount_pos : 0 < sb.inodeCount
  datablockCount_pos : 0 < sb.datablockCount

/-- The regions as fs_create lays them out: in order, but a bitmap is only sure
to have room for its whole bytes, and may spill its last byte into the next region.
One of less than eight bits may have no block of its own. -/
structure Regions (sb : Superblock) : Prop where
  blockSize_mem : sb.blockSize ∈ blockSizes
  inodeBitmap_after : 1 ≤ sb.inodeBitmapStart
  datablockBitmap_after :
    sb.inodeBitmapStart + sb.inodeBitmapBlockCount ≤ sb.datablockBitmapStart
  inodes_after : sb.datablockBitmapStart + sb.datablockBitmapBlockCount ≤ sb.inodeStart
  datablocks_after : sb.inodeStart + sb.inodeBlockCount ≤ sb.datablocksStart
  inodeBitmap_near : sb.inodeCount / 8 ≤ sb.inodeBitmapBlockCount * sb.blockSize
  datablockBitmap_near : sb.datablockCount / 8 ≤ sb.datablockBitmapBlockCount * sb.blockSize
  inodes_fit : sb.inodeCount * inodeSize ≤ sb.inodeBlockCount * sb.blockSize
  within : (sb.datablocksStart + sb.datablockCount) * sb.blockSize ≤ 2 ^ 31
  inodeCount_pos : 0 < sb.inodeCount
  datablockCount_pos : 0 < sb.datablockCount

section Views

variable (sb : Superblock) (m : Memory)

def inodeBit (i : ℕ) : Bool := bitAt m (sb.blockSize * sb.inodeBitmapStart) i

def dataBit (b : ℕ) : Bool := bitAt m (sb.blockSize * sb.datablockBitmapStart) b

def inodeAt (i : ℕ) : Inode :=
  Inode.ofMemory (advance m (sb.blockSize * sb.inodeStart + inodeSize * i))

/-- The contents of a data block. -/
def blockData (b : ℕ) : Memory := advance m (sb.blockSize * (sb.datablocksStart + b))

/-- An inode in use. -/
def Live (i : ℕ) : Prop := i < sb.inodeCount ∧ (inodeAt sb m i).number ≠ 0

/-- The tables as the tools read them. -/
def inodeTableOf : InodeTable := tableOf m (sb.blockSize * sb.inodeStart) sb.inodeCount

/-- The places at which a file can name a block. -/
inductive Place
  | direct (i : ℕ)
  | indirect (i : ℕ)
  | entry (i j : ℕ)
  deriving DecidableEq

def directAt (inode : Inode) (i : ℕ) : ℕ :=
  if h : i < 4 then (inode.directPtr ⟨i, h⟩).toNat else 0

def indirectAt (inode : Inode) (i : ℕ) : ℕ :=
  if h : i < 9 then (inode.indirectPtr ⟨i, h⟩).toNat else 0

/-- Entry j of the indirect block i, which has none if there is no such block. -/
def entryAt (inode : Inode) (i j : ℕ) : ℕ :=
  if indirectAt inode i ≠ 0 ∧ j < sb.blockSize / 2 then
    (read16 (blockData sb m (indirectAt inode i)) (2 * j)).toNat
  else 0

/-- The block named at a place, or 0. -/
def pointer (inode : Inode) : Place → ℕ
  | .direct i => directAt inode i
  | .indirect i => indirectAt inode i
  | .entry i j => entryAt sb m inode i j

/-- The data and indirect blocks of a file. -/
def Owns (inode : Inode) (b : ℕ) : Prop := b ≠ 0 ∧ ∃ p, pointer sb m inode p = b

/-- The number of data blocks a file of some size needs. -/
def blocksFor (size : ℕ) : ℕ := (size + sb.blockSize - 1) / sb.blockSize

/-- The place that names the k-th block of a file. -/
def filePlace (k : ℕ) : Place :=
  if k < 4 then .direct k
  else .entry ((k - 4) / (sb.blockSize / 2)) ((k - 4) % (sb.blockSize / 2))

/-- The data block that stores the k-th block of a file. -/
def fileBlock (inode : Inode) (k : ℕ) : ℕ :=
  if k < 4 then directAt inode k
  else entryAt sb m inode ((k - 4) / (sb.blockSize / 2)) ((k - 4) % (sb.blockSize / 2))

/-- The byte at an offset of a file. -/
def fileByte (inode : Inode) (x : ℕ) : Byte :=
  blockData sb m (fileBlock sb m inode (x / sb.blockSize)) (x % sb.blockSize)

/-- A file has exactly the blocks its size needs: four direct ones, then those
listed in indirect blocks, and no pointer beyond. -/
structure SizeExact (inode : Inode) : Prop where
  capacity : blocksFor sb inode.size.toNat ≤ 4 + 9 * (sb.blockSize / 2)
  direct_iff : ∀ i < 4, directAt inode i ≠ 0 ↔ i < blocksFor sb inode.size.toNat
  indirect_iff : ∀ i < 9,
    indirectAt inode i ≠ 0 ↔ 4 + i * (sb.blockSize / 2) < blocksFor sb inode.size.toNat
  entry_iff : ∀ i < 9, ∀ j < sb.blockSize / 2,
    entryAt sb m inode i j ≠ 0 ↔ 4 + i * (sb.blockSize / 2) + j < blocksFor sb inode.size.toNat

/-- Live names differ in their first 31 characters. -/
def NamesDistinct : Prop :=
  ∀ i j, Live sb m i → Live sb m j →
    (inodeAt sb m i).shownName = (inodeAt sb m j).shownName → i = j

end Views

/-- The bitmaps, the inode table and the block pointers agree. -/
structure Consistent (sb : Superblock) (fs : File) : Prop where
  superblock : Superblock.ofMemory fs.bytes = sb
  valid : superblockValid fs.bytes
  layout : Layout sb
  covers : sb.blockSize * (sb.datablocksStart + sb.datablockCount) ≤ fs.size
  inodeCount_le : sb.inodeCount ≤ 65535
  datablockCount_le : sb.datablockCount ≤ 65536
  number : ∀ i < sb.inodeCount,
    (inodeAt sb fs.bytes i).number = 0 ∨ (inodeAt sb fs.bytes i).number.toNat = i
  free_zero : ∀ i < sb.inodeCount,
    (inodeAt sb fs.bytes i).number = 0 → inodeAt sb fs.bytes i = Inode.zero
  inodeBit_iff : ∀ i < sb.inodeCount,
    inodeBit sb fs.bytes i = true ↔ i = 0 ∨ (inodeAt sb fs.bytes i).number.toNat = i
  blocks : Tracked (Live sb fs.bytes) (fun i => pointer sb fs.bytes (inodeAt sb fs.bytes i))
    (dataBit sb fs.bytes) sb.datablockCount

/-- An image whose metadata the tools can read, and whose free inodes are zero. -/
structure Accessible (sb : Superblock) (fs : File) : Prop where
  superblock : Superblock.ofMemory fs.bytes = sb
  valid : superblockValid fs.bytes
  regions : Regions sb
  inodeCount_le : sb.inodeCount ≤ 65535
  clear_zero : ∀ i < sb.inodeCount,
    inodeBit sb fs.bytes i = false → inodeAt sb fs.bytes i = Inode.zero

/-- A well-formed image. -/
structure WellFormed (sb : Superblock) (fs : File) : Prop extends Consistent sb fs where
  names : NamesDistinct sb fs.bytes
  sizes : ∀ i, Live sb fs.bytes i → SizeExact sb fs.bytes (inodeAt sb fs.bytes i)

section Geometry

variable {sb : Superblock}

theorem Layout.regions (h : Layout sb) : Regions sb := by
  have hib := h.inodeBitmap_fits
  have hdb := h.datablockBitmap_fits
  exact { h with inodeBitmap_near := by omega, datablockBitmap_near := by omega }

theorem Layout.inodeBitmap_pos (h : Layout sb) : 0 < sb.inodeBitmapBlockCount := by
  have hib := h.inodeBitmap_fits
  have hic := h.inodeCount_pos
  refine Nat.pos_of_ne_zero fun h0 => ?_
  rw [h0, Nat.zero_mul] at hib
  omega

theorem Layout.datablockBitmap_pos (h : Layout sb) : 0 < sb.datablockBitmapBlockCount := by
  have hdb := h.datablockBitmap_fits
  have hdc := h.datablockCount_pos
  refine Nat.pos_of_ne_zero fun h0 => ?_
  rw [h0, Nat.zero_mul] at hdb
  omega

theorem Regions.blockSize_bounds (h : Regions sb) :
    512 ≤ sb.blockSize ∧ sb.blockSize ≤ 8192 ∧ sb.blockSize % 64 = 0 :=
  blockSizes_bounds h.blockSize_mem

theorem Layout.blockSize_bounds (h : Layout sb) :
    512 ≤ sb.blockSize ∧ sb.blockSize ≤ 8192 ∧ sb.blockSize % 64 = 0 :=
  blockSizes_bounds h.blockSize_mem

/-- The regions in bytes. -/
theorem Regions.offsets (h : Regions sb) :
    sb.blockSize ≤ sb.blockSize * sb.inodeBitmapStart ∧
    sb.blockSize * sb.inodeBitmapStart + sb.blockSize * sb.inodeBitmapBlockCount ≤
      sb.blockSize * sb.datablockBitmapStart ∧
    sb.blockSize * sb.datablockBitmapStart + sb.blockSize * sb.datablockBitmapBlockCount ≤
      sb.blockSize * sb.inodeStart ∧
    sb.blockSize * sb.inodeStart + sb.blockSize * sb.inodeBlockCount ≤
      sb.blockSize * sb.datablocksStart ∧
    sb.blockSize * sb.datablocksStart + sb.blockSize * sb.datablockCount ≤ 2 ^ 31 := by
  have hmono := fun {a b : ℕ} (hab : a ≤ b) => Nat.mul_le_mul_left sb.blockSize hab
  refine ⟨?_, ?_, ?_, ?_, ?_⟩
  · simpa using hmono h.inodeBitmap_after
  · simpa [Nat.mul_add] using hmono h.datablockBitmap_after
  · simpa [Nat.mul_add] using hmono h.inodes_after
  · simpa [Nat.mul_add] using hmono h.datablocks_after
  · simpa [Nat.mul_add, Nat.add_mul, Nat.mul_comm] using h.within

/-- Every table fits in its region, in bytes. -/
theorem Layout.tables_fit (h : Layout sb) :
    (sb.inodeCount + 7) / 8 ≤ sb.blockSize * sb.inodeBitmapBlockCount ∧
    (sb.datablockCount + 7) / 8 ≤ sb.blockSize * sb.datablockBitmapBlockCount ∧
    sb.inodeCount * inodeSize ≤ sb.blockSize * sb.inodeBlockCount := by
  have hib := h.inodeBitmap_fits
  have hdb := h.datablockBitmap_fits
  have hit := h.inodes_fit
  rw [Nat.mul_comm sb.inodeBitmapBlockCount] at hib
  rw [Nat.mul_comm sb.datablockBitmapBlockCount] at hdb
  rw [Nat.mul_comm sb.inodeBlockCount] at hit
  exact ⟨hib, hdb, hit⟩

theorem dataRegion_end (sb : Superblock) :
    sb.blockSize * (sb.datablocksStart + sb.datablockCount) =
      sb.blockSize * sb.datablocksStart + sb.blockSize * sb.datablockCount := Nat.mul_add _ _ _

/-- A data block lies after the inode table and inside the image. -/
theorem Regions.block_range (h : Regions sb) {b : ℕ} (hb : b < sb.datablockCount) :
    sb.blockSize * sb.datablocksStart ≤ sb.blockSize * (sb.datablocksStart + b) ∧
    sb.blockSize * (sb.datablocksStart + b) + sb.blockSize ≤
      sb.blockSize * (sb.datablocksStart + sb.datablockCount) ∧
    sb.blockSize * (sb.datablocksStart + sb.datablockCount) ≤ 2 ^ 31 := by
  refine ⟨Nat.mul_le_mul_left _ (by omega), ?_, by rw [Nat.mul_comm]; exact h.within⟩
  calc
    sb.blockSize * (sb.datablocksStart + b) + sb.blockSize =
        sb.blockSize * (sb.datablocksStart + b + 1) := by ring
    _ ≤ sb.blockSize * (sb.datablocksStart + sb.datablockCount) :=
        Nat.mul_le_mul_left _ (by omega)

theorem Regions.datablocksStart_pos (h : Regions sb) : 0 < sb.datablocksStart := by
  have h1 := h.inodeBitmap_after
  have h2 := h.datablockBitmap_after
  have h3 := h.inodes_after
  have h4 := h.datablocks_after
  omega

/-- Any data block can be read whole. -/
theorem Regions.blockRead_data (h : Regions sb) {fs : File}
    (hcovers : sb.blockSize * (sb.datablocksStart + sb.datablockCount) ≤ fs.size) {b : ℕ}
    (hb : b < sb.datablockCount) (dest : Memory) (p : ℕ) :
    ∃ p', blockRead sb.blockSize (sb.datablocksStart + b) dest (fs.movedTo p) =
      .ok (fun t => if t < sb.blockSize then blockData sb fs.bytes b t else dest t,
        fs.movedTo p') := by
  have hbounds := h.blockSize_bounds
  have hstart := h.datablocksStart_pos
  obtain ⟨-, hend, hmax⟩ := h.block_range hb
  exact blockRead_spec dest (fs.movedTo p) (by omega) (by omega) (by omega)
    (by simp only [File.movedTo_size]; omega)

theorem Regions.data_index (h : Regions sb) {b : ℕ} (hb : b < sb.datablockCount) :
    sb.datablocksStart + b < 2 ^ 32 := by
  have hbounds := h.blockSize_bounds
  obtain ⟨-, hend, hmax⟩ := h.block_range hb
  have hle : sb.datablocksStart + b ≤ sb.blockSize * (sb.datablocksStart + b) :=
    Nat.le_mul_of_pos_left _ (by omega)
  omega

end Geometry

section Congruence

variable {sb : Superblock} {m m' : Memory}

theorem directAt_ne_zero_lt {inode : Inode} {i : ℕ} (h : directAt inode i ≠ 0) : i < 4 := by
  by_contra hi
  exact h (dif_neg hi)

theorem indirectAt_ne_zero_lt {inode : Inode} {i : ℕ} (h : indirectAt inode i ≠ 0) : i < 9 := by
  by_contra hi
  exact h (dif_neg hi)

theorem directAt_fin (inode : Inode) (k : Fin 4) : directAt inode k = (inode.directPtr k).toNat :=
  dif_pos k.isLt

theorem indirectAt_fin (inode : Inode) (k : Fin 9) :
    indirectAt inode k = (inode.indirectPtr k).toNat := dif_pos k.isLt

theorem indirectAt_lt (inode : Inode) (i : ℕ) : indirectAt inode i < 65536 := by
  unfold indirectAt
  split
  · exact BitVec.isLt _
  · omega

/-- Pointers depend on the inode and on its indirect blocks only. -/
theorem pointer_congr {inode : Inode}
    (h : ∀ i, indirectAt inode i ≠ 0 → ∀ t < sb.blockSize,
      blockData sb m' (indirectAt inode i) t = blockData sb m (indirectAt inode i) t) :
    pointer sb m' inode = pointer sb m inode := by
  funext p
  cases p with
  | direct i => rfl
  | indirect i => rfl
  | entry i j =>
    simp only [pointer, entryAt]
    by_cases hp : indirectAt inode i ≠ 0 ∧ j < sb.blockSize / 2
    · rw [if_pos hp, if_pos hp, read16_congr (h i hp.1 (2 * j) (by omega))
        (h i hp.1 (2 * j + 1) (by omega))]
    · rw [if_neg hp, if_neg hp]

theorem entryAt_congr {inode inode' : Inode} {i : ℕ} (h : indirectAt inode i = indirectAt inode' i)
    (j : ℕ) : entryAt sb m inode i j = entryAt sb m inode' i j := by
  rw [entryAt, entryAt, h]

theorem entryAt_of_zero {inode : Inode} {i : ℕ} (h : indirectAt inode i = 0) (j : ℕ) :
    entryAt sb m inode i j = 0 := if_neg fun hboth => hboth.1 h

theorem fileBlock_eq_pointer (inode : Inode) (k : ℕ) :
    fileBlock sb m inode k = pointer sb m inode (filePlace sb k) := by
  unfold fileBlock filePlace
  split <;> rfl

theorem filePlace_entry {k j : ℕ} (hj : j < sb.blockSize / 2) :
    filePlace sb (4 + k * (sb.blockSize / 2) + j) = .entry k j := by
  have hsub : 4 + k * (sb.blockSize / 2) + j - 4 = sb.blockSize / 2 * k + j := by
    rw [Nat.mul_comm]
    omega
  rw [filePlace, if_neg (by omega), hsub, Nat.mul_add_div (by omega), Nat.mul_add_mod,
    Nat.div_eq_of_lt hj, Nat.mod_eq_of_lt hj, Nat.add_zero]

theorem SizeExact.congr {inode : Inode} (hs : SizeExact sb m inode)
    (h : pointer sb m' inode = pointer sb m inode) : SizeExact sb m' inode where
  capacity := hs.capacity
  direct_iff := hs.direct_iff
  indirect_iff := hs.indirect_iff
  entry_iff := fun i hi j hj => by
    have hentry : entryAt sb m' inode i j = entryAt sb m inode i j := congrFun h (.entry i j)
    rw [hentry]
    exact hs.entry_iff i hi j hj

/-- An inode is read from its slot only. -/
theorem inodeAt_congr {j : ℕ} (h : ∀ k < inodeSize,
    m' (sb.blockSize * sb.inodeStart + inodeSize * j + k) =
      m (sb.blockSize * sb.inodeStart + inodeSize * j + k)) :
    inodeAt sb m' j = inodeAt sb m j := Inode.ofMemory_congr h

theorem inodeAt_cleared {j : ℕ} (h : ∀ k < inodeSize,
    m (sb.blockSize * sb.inodeStart + inodeSize * j + k) = 0) : inodeAt sb m j = Inode.zero :=
  (Inode.ofMemory_congr h).trans Inode.ofMemory_zero

/-- The superblock is read from the first block only. -/
theorem superblock_of_head (hl : Layout sb) (head : ∀ a < sb.blockSize, m' a = m a)
    (hsb : Superblock.ofMemory m = sb) (hv : superblockValid m) :
    Superblock.ofMemory m' = sb ∧ superblockValid m' := by
  have hbounds := hl.blockSize_bounds
  have hsame : ∀ k < Superblock.byteSize, m' k = m k := by
    intro k hk
    simp only [Superblock.byteSize] at hk
    exact head k (by omega)
  exact ⟨(Superblock.ofMemory_congr hsame).trans hsb, (superblockValid_congr hsame).mpr hv⟩

/-- An inode and the blocks its file owns are byte for byte the same. -/
structure SameFile (sb : Superblock) (m m' : Memory) (j : ℕ) : Prop where
  inode : inodeAt sb m' j = inodeAt sb m j
  blocks : ∀ b, Owns sb m (inodeAt sb m j) b → ∀ t < sb.blockSize,
    blockData sb m' b t = blockData sb m b t

theorem SameFile.pointer {j : ℕ} (h : SameFile sb m m' j) :
    pointer sb m' (inodeAt sb m' j) = pointer sb m (inodeAt sb m j) := by
  rw [h.inode]
  apply pointer_congr
  intro i hi
  exact h.blocks _ ⟨hi, .indirect i, rfl⟩

theorem SameFile.sizeExact {j : ℕ} (h : SameFile sb m m' j)
    (hs : SizeExact sb m (inodeAt sb m j)) : SizeExact sb m' (inodeAt sb m' j) := by
  have hpointer := h.pointer
  rw [h.inode] at hpointer ⊢
  exact hs.congr hpointer

theorem SameFile.fileByte {j x : ℕ} (h : SameFile sb m m' j) (hbs : 0 < sb.blockSize)
    (hx : fileBlock sb m (inodeAt sb m j) (x / sb.blockSize) ≠ 0) :
    fileByte sb m' (inodeAt sb m' j) x = fileByte sb m (inodeAt sb m j) x := by
  have hblock : fileBlock sb m' (inodeAt sb m' j) (x / sb.blockSize) =
      fileBlock sb m (inodeAt sb m j) (x / sb.blockSize) := by
    rw [fileBlock_eq_pointer, fileBlock_eq_pointer, h.pointer]
  rw [Images.fileByte, Images.fileByte, hblock]
  exact h.blocks _ ⟨hx, _, (fileBlock_eq_pointer _ _).symm⟩ _ (Nat.mod_lt _ hbs)

/-- What a consistent image has in a slot of the inode table, and in its bit. -/
structure SlotConsistent (sb : Superblock) (m : Memory) (j : ℕ) : Prop where
  number : (inodeAt sb m j).number = 0 ∨ (inodeAt sb m j).number.toNat = j
  free_zero : (inodeAt sb m j).number = 0 → inodeAt sb m j = Inode.zero
  inodeBit_iff : inodeBit sb m j = true ↔ j = 0 ∨ (inodeAt sb m j).number.toNat = j

theorem SlotConsistent.congr {j : ℕ} (h : SlotConsistent sb m j)
    (hinode : inodeAt sb m' j = inodeAt sb m j) (hbit : inodeBit sb m' j = inodeBit sb m j) :
    SlotConsistent sb m' j := by
  constructor
  · rw [hinode]
    exact h.number
  · rw [hinode]
    exact h.free_zero
  · rw [hinode, hbit]
    exact h.inodeBit_iff

theorem Consistent.slot {fs : File} (hc : Consistent sb fs) {j : ℕ} (hj : j < sb.inodeCount) :
    SlotConsistent sb fs.bytes j where
  number := hc.number j hj
  free_zero := hc.free_zero j hj
  inodeBit_iff := hc.inodeBit_iff j hj

/-- An operation that keeps the first block need only look after the slots and the blocks. -/
theorem Consistent.of_slots {fs fs' : File} (hc : Consistent sb fs) (hsize : fs.size ≤ fs'.size)
    (hhead : ∀ a < sb.blockSize, fs'.bytes a = fs.bytes a)
    (hslots : ∀ j < sb.inodeCount, SlotConsistent sb fs'.bytes j)
    (hblocks : Tracked (Live sb fs'.bytes)
      (fun i => Images.pointer sb fs'.bytes (inodeAt sb fs'.bytes i)) (dataBit sb fs'.bytes)
      sb.datablockCount) : Consistent sb fs' := by
  obtain ⟨hsb, hvalid⟩ := superblock_of_head hc.layout hhead hc.superblock hc.valid
  constructor
  case superblock => exact hsb
  case valid => exact hvalid
  case layout => exact hc.layout
  case covers => exact Nat.le_trans hc.covers hsize
  case inodeCount_le => exact hc.inodeCount_le
  case datablockCount_le => exact hc.datablockCount_le
  case number => exact fun j hj => (hslots j hj).number
  case free_zero => exact fun j hj => (hslots j hj).free_zero
  case inodeBit_iff => exact fun j hj => (hslots j hj).inodeBit_iff
  case blocks => exact hblocks

end Congruence

section Reading

variable {sb : Superblock} {fs : File}

theorem inodeTableOf_inode {m : Memory} {i : ℕ} (h : i < sb.inodeCount) :
    (inodeTableOf sb m).inode i = inodeAt sb m i := tableOf_inode h

theorem Regions.counts (h : Regions sb) :
    sb.inodeCount * inodeSize ≤ 2 ^ 31 ∧ sb.datablockCount < 2 ^ 31 := by
  have hbounds := h.blockSize_bounds
  have hfull := Nat.mul_le_mul_right sb.datablockCount hbounds.1
  have hfit := h.inodes_fit
  rw [Nat.mul_comm sb.inodeBlockCount] at hfit
  obtain ⟨-, -, -, h4, h5⟩ := h.offsets
  omega

/-- The three tables can be read, from whatever position. -/
theorem Regions.reads_tables (hr : Regions sb) (fs : File) (p : ℕ) :
    ∃ p₁ p₂ p₃,
      bitmapRead sb.inodeBitmapStart sb.inodeCount sb.blockSize (fs.movedTo p) =
        .ok (bitmapOf fs.bytes (sb.blockSize * sb.inodeBitmapStart) sb.inodeCount,
          fs.movedTo p₁) ∧
      bitmapRead sb.datablockBitmapStart sb.datablockCount sb.blockSize (fs.movedTo p₁) =
        .ok (bitmapOf fs.bytes (sb.blockSize * sb.datablockBitmapStart) sb.datablockCount,
          fs.movedTo p₂) ∧
      inodeTableRead sb.inodeCount sb.inodeStart sb.blockSize (fs.movedTo p₂) =
        .ok (inodeTableOf sb fs.bytes, fs.movedTo p₃) := by
  have hbounds := hr.blockSize_bounds
  have hwide : 64 ≤ inodeSize := by decide
  have hinodes := Nat.mul_le_mul_left sb.inodeCount hwide
  have hblocks := Nat.mul_le_mul hbounds.1 hr.datablockCount_pos
  obtain ⟨hslots, hdata⟩ := hr.counts
  obtain ⟨h1, h2, h3, h4, h5⟩ := hr.offsets
  obtain ⟨p₁, hib⟩ := bitmapRead_spec sb.inodeBitmapStart sb.inodeCount
    (fs.movedTo p) hr.blockSize_mem hr.inodeCount_pos (by omega) (by omega)
  obtain ⟨p₂, hdb⟩ := bitmapRead_spec sb.datablockBitmapStart
    sb.datablockCount (fs.movedTo p₁) hr.blockSize_mem hr.datablockCount_pos
    hdata (by omega)
  have hafter₁ := hr.inodeBitmap_after
  have hafter₂ := hr.datablockBitmap_after
  have hafter₃ := hr.inodes_after
  obtain ⟨p₃, hit⟩ := inodeTableRead_spec sb.inodeCount sb.inodeStart
    (fs.movedTo p₂) hr.inodeCount_pos (by omega) (by omega : 0 < sb.blockSize)
    (by omega) (by omega)
  exact ⟨p₁, p₂, p₃, hib, hdb, hit⟩

/-- All four parts of the metadata can be read. -/
theorem Regions.reads (hr : Regions sb) (hsuperblock : Superblock.ofMemory fs.bytes = sb)
    (hvalid : superblockValid fs.bytes) :
    ∃ p₁ p₂ p₃ p₄,
      superblockRead fs = .ok (sb, fs.movedTo p₁) ∧
      bitmapRead sb.inodeBitmapStart sb.inodeCount sb.blockSize (fs.movedTo p₁) =
        .ok (bitmapOf fs.bytes (sb.blockSize * sb.inodeBitmapStart) sb.inodeCount,
          fs.movedTo p₂) ∧
      bitmapRead sb.datablockBitmapStart sb.datablockCount sb.blockSize (fs.movedTo p₂) =
        .ok (bitmapOf fs.bytes (sb.blockSize * sb.datablockBitmapStart) sb.datablockCount,
          fs.movedTo p₃) ∧
      inodeTableRead sb.inodeCount sb.inodeStart sb.blockSize (fs.movedTo p₃) =
        .ok (inodeTableOf sb fs.bytes, fs.movedTo p₄) := by
  obtain ⟨p₁, hsb⟩ := superblockRead_spec fs hvalid
  rw [hsuperblock] at hsb
  obtain ⟨p₂, p₃, p₄, htables⟩ := hr.reads_tables fs p₁
  exact ⟨p₁, p₂, p₃, p₄, hsb, htables⟩

/-- A slot whose bit is clear is not 0 and holds the empty inode. -/
theorem inodeAt_of_clear (hc : Consistent sb fs) {i : ℕ} (hi : i < sb.inodeCount)
    (hclear : inodeBit sb fs.bytes i = false) : i ≠ 0 ∧ inodeAt sb fs.bytes i = Inode.zero := by
  have hunused : ¬ (i = 0 ∨ (inodeAt sb fs.bytes i).number.toNat = i) := by
    rw [← hc.inodeBit_iff i hi, hclear]
    decide
  refine ⟨fun h => hunused (Or.inl h), hc.free_zero i hi ?_⟩
  rcases hc.number i hi with h | h
  · exact h
  · exact absurd (Or.inr h) hunused

theorem Consistent.accessible (hc : Consistent sb fs) : Accessible sb fs where
  superblock := hc.superblock
  valid := hc.valid
  regions := hc.layout.regions
  inodeCount_le := hc.inodeCount_le
  clear_zero := fun _ hi hclear => (inodeAt_of_clear hc hi hclear).2

theorem inodeTableRead_image (hc : Consistent sb fs) :
    ∃ p, inodeTableRead sb.inodeCount sb.inodeStart sb.blockSize fs =
      .ok (inodeTableOf sb fs.bytes, fs.movedTo p) := by
  have hl := hc.layout
  have hbounds := hl.blockSize_bounds
  have hcount := hc.inodeCount_le
  obtain ⟨h1, h2, h3, h4, h5⟩ := hl.regions.offsets
  have hblocks := Nat.mul_le_mul hbounds.1 hl.datablockCount_pos
  have hafter := hl.inodes_after
  have hafter' := hl.datablockBitmap_after
  have hafter'' := hl.inodeBitmap_after
  exact inodeTableRead_spec _ _ fs hl.inodeCount_pos (by omega) (by omega)
    (by simp only [inodeSize]; omega) (by omega)

/-- Lookups in a table the tools have read never leave it. -/
theorem fsGetFileInode_of_image (filename : Memory) (m : Memory) :
    fsGetFileInode filename (inodeTableOf sb m) = .ok (lookup filename (inodeTableOf sb m)) :=
  fsGetFileInode_spec filename (Nat.le_refl _)

/-- A name is found at a live inode that carries it. -/
theorem lookup_live {filename : Memory} {m : Memory} {i : ℕ}
    (h : lookup filename (inodeTableOf sb m) = some i) :
    Live sb m i ∧ (inodeAt sb m i).shownName = cut 31 filename := by
  obtain ⟨hi, hlive, hname, -⟩ := lookup_some h
  have hlt : i < sb.inodeCount := hi
  rw [inodeTableOf_inode hlt] at hlive hname
  exact ⟨⟨hlt, hlive⟩, hname⟩

theorem lookup_none_iff {filename : Memory} {m : Memory} :
    lookup filename (inodeTableOf sb m) = none ↔
      ∀ i, Live sb m i → (inodeAt sb m i).shownName ≠ cut 31 filename := by
  rw [lookup_eq_none_iff]
  constructor
  · intro h i hi
    have hne := h i hi.1
    rw [inodeTableOf_inode hi.1] at hne
    exact hne hi.2
  · intro h i hi hlive
    have hlt : i < sb.inodeCount := hi
    rw [inodeTableOf_inode hlt] at hlive ⊢
    exact h i ⟨hlt, hlive⟩

/-- Names stay distinct when one slot changes and shows no name that another file has. -/
theorem NamesDistinct.setSlot {m m' : Memory} {i : ℕ} (hn : NamesDistinct sb m)
    (hothers : ∀ j < sb.inodeCount, j ≠ i → inodeAt sb m' j = inodeAt sb m j)
    (hfresh : Live sb m' i → ∀ j, Live sb m j →
      (inodeAt sb m j).shownName ≠ (inodeAt sb m' i).shownName) : NamesDistinct sb m' := by
  have hold : ∀ j, Live sb m' j → j ≠ i → Live sb m j := by
    intro j hj hji
    refine ⟨hj.1, ?_⟩
    rw [← hothers j hj.1 hji]
    exact hj.2
  have hapart : ∀ j, Live sb m' j → j ≠ i → Live sb m' i →
      (inodeAt sb m' j).shownName ≠ (inodeAt sb m' i).shownName := by
    intro j hj hji hi
    rw [hothers j hj.1 hji]
    exact hfresh hi j (hold j hj hji)
  intro j k hj hk hname
  by_cases hji : j = i
  · by_cases hki : k = i
    · rw [hji, hki]
    · rw [hji] at hname hj
      exact absurd hname.symm (hapart k hk hki hj)
  · by_cases hki : k = i
    · rw [hki] at hname hk
      exact absurd hname (hapart j hj hji hk)
    · rw [hothers j hj.1 hji, hothers k hk.1 hki] at hname
      exact hn j k (hold j hj hji) (hold k hk hki) hname

/-- With distinct names the inode that carries a name is the one found. -/
theorem lookup_of_live {filename : Memory} {m : Memory} {i : ℕ} (hn : NamesDistinct sb m)
    (hi : Live sb m i) (hname : (inodeAt sb m i).shownName = cut 31 filename) :
    lookup filename (inodeTableOf sb m) = some i := by
  cases h : lookup filename (inodeTableOf sb m) with
  | none => exact absurd hname (lookup_none_iff.mp h i hi)
  | some j =>
    obtain ⟨hj, hjname⟩ := lookup_live h
    rw [hn i j hi hj (hname.trans hjname.symm)]

end Reading

end RathalOS.Images
