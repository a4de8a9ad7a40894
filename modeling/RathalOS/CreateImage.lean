import RathalOS.BlockAddresses
import RathalOS.EmptyImages
import RathalOS.WriteBack

/-!
Creating an image, tools/fs_create.c. ROUND_UP is applied to a count of bytes
that was itself rounded down: the block count of a bitmap is short by one when
the bits fill whole blocks and a few are left, and a bitmap of less than eight
bits gets as many blocks as there are 32-bit offsets. For all other counts the
regions follow one another and the image is an empty file system.
-/
namespace RathalOS.CreateImage

open ByteMemory ByteFile Blocks Bitmaps CStrings Superblocks Inodes Images AddFile WriteBack
open EmptyImages BlockAddresses

def SUPERBLOCK_LABEL_LENGTH : ℕ := 32

def strnlen (s : Memory) (maxlen : ℕ) : ℕ := (cut maxlen s).length

/-- The loop over the data blocks, at block i with n left. -/
def emptyBlocksLoop (sb : Superblock) (blockSize : ℕ) : ℕ → ℕ → File → Except Fault File
  | _, 0, fs => .ok fs
  | i, n + 1, fs => do
    let fs ← blocksWrite blockSize (uint (sb.datablocksStart + i)) (fun _ => 0) blockSize fs
    emptyBlocksLoop sb blockSize (i + 1) n fs

/-- `main`, whose numbers are what atoi made of the arguments. The image is
opened for writing, which empties it. -/
def fsCreate (label : Memory) (blockSize inodeCount datablockCount : ℤ) : Except Fault File :=
  if strnlen label (SUPERBLOCK_LABEL_LENGTH - 1) < 1 ∨ blockSize ≤ 0 ∨ inodeCount ≤ 0 ∨
      datablockCount ≤ 0 then .error .exit
  else if blockSize.tmod 512 ≠ 0 then .error .exit
  else if 65535 < inodeCount then .error .exit
  else do
    let bs := blockSize.toNat
    let sb ← superblockCreate label bs inodeCount.toNat datablockCount.toNat
    let fs ← superblockWrite sb File.empty
    let inodeBitmap ← bitmapCreate inodeCount.toNat
    let inodeBitmap ← bitmapSet inodeBitmap 0 true
    let fs ← bitmapWrite inodeBitmap sb.inodeBitmapStart bs fs
    let datablockBitmap ← bitmapCreate datablockCount.toNat
    let datablockBitmap ← bitmapSet datablockBitmap 0 true
    let fs ← bitmapWrite datablockBitmap sb.datablockBitmapStart bs fs
    let itab ← inodeTableCreate inodeCount.toNat
    let fs ← inodeTableWrite itab sb.inodeStart bs fs
    emptyBlocksLoop sb bs 0 datablockCount.toNat fs

/-- What superblock_create computes. -/
structure Computed (bs ic dc : ℕ) (sb : Superblock) : Prop where
  blockSize : sb.blockSize = bs
  inodeCount : sb.inodeCount = ic
  datablockCount : sb.datablockCount = dc
  inodeBitmapStart : sb.inodeBitmapStart = 1
  inodeBitmapBlockCount : sb.inodeBitmapBlockCount = roundUp ((intOfUint ic).tdiv 8) bs
  datablockBitmapStart : sb.datablockBitmapStart = uint (1 + sb.inodeBitmapBlockCount)
  datablockBitmapBlockCount : sb.datablockBitmapBlockCount = roundUp ((intOfUint dc).tdiv 8) bs
  inodeStart : sb.inodeStart = uint (sb.datablockBitmapStart + sb.datablockBitmapBlockCount)
  inodeBlockCount : sb.inodeBlockCount = 1 + (ic * inodeSize - 1) / bs
  datablocksStart : sb.datablocksStart = uint (sb.inodeStart + sb.inodeBlockCount)
  signed : Signed sb

/-- The image is an empty file system: the regions follow one another, lie in
the image and have room for their tables, and the tables read back as empty. -/
structure WellFormedEmpty (sb : Superblock) (fs : File) : Prop where
  inodeBitmap_after : 1 ≤ sb.inodeBitmapStart
  datablockBitmap_after :
    sb.inodeBitmapStart + sb.inodeBitmapBlockCount ≤ sb.datablockBitmapStart
  inodes_after : sb.datablockBitmapStart + sb.datablockBitmapBlockCount ≤ sb.inodeStart
  inodeBlockCount : sb.inodeBlockCount = sb.datablocksStart - sb.inodeStart
  datablocks_after : sb.inodeStart + sb.inodeBlockCount ≤ sb.datablocksStart
  covers : sb.blockSize * (sb.datablocksStart + sb.datablockCount) ≤ fs.size
  inodeBitmap_fits : (sb.inodeCount + 7) / 8 ≤ sb.inodeBitmapBlockCount * sb.blockSize
  datablockBitmap_fits :
    (sb.datablockCount + 7) / 8 ≤ sb.datablockBitmapBlockCount * sb.blockSize
  inodes_fit : sb.inodeCount * inodeSize ≤ sb.inodeBlockCount * sb.blockSize
  inodeBitmap_read : ∃ bitmap fs',
    bitmapRead sb.inodeBitmapStart sb.inodeCount sb.blockSize fs = .ok (bitmap, fs') ∧
      ∀ i < sb.inodeCount, bitmap.test i = true ↔ i = 0
  datablockBitmap_read : ∃ bitmap fs',
    bitmapRead sb.datablockBitmapStart sb.datablockCount sb.blockSize fs = .ok (bitmap, fs') ∧
      ∀ b < sb.datablockCount, bitmap.test b = true ↔ b = 0
  inodes_read : ∃ itab fs',
    inodeTableRead sb.inodeCount sb.inodeStart sb.blockSize fs = .ok (itab, fs') ∧
      ∀ k < sb.inodeCount * inodeSize, itab.inodes k = 0

/-- ROUND_UP of the rounded-down byte count leaves room for every bit. -/
def BitmapRoom (bs count : ℕ) : Prop := 8 ≤ count ∧ ¬ (bs ∣ count / 8 ∧ ¬ 8 ∣ count)

instance (bs count : ℕ) : Decidable (BitmapRoom bs count) := by
  unfold BitmapRoom
  infer_instance

section BlockCounts

variable {bs count : ℕ}

theorem bitmapBlockCount_of_le (bs : ℕ) (h8 : 8 ≤ count) (h : count < 2 ^ 31) :
    roundUp ((intOfUint count).tdiv 8) bs = 1 + (count / 8 - 1) / bs := by
  have hdiv : ((count : ℕ) : ℤ).tdiv 8 = ((count / 8 : ℕ) : ℤ) := rfl
  have hle : (count / 8 - 1) / bs ≤ count / 8 - 1 := Nat.div_le_self _ _
  rw [intOfUint_of_lt h, hdiv, roundUp_of_pos (by omega) (by omega), uint_of_lt (by omega)]

/-- With less than eight bits the dividend wraps around. -/
theorem bitmapBlockCount_of_lt (hbs : bs ∈ blockSizes) (h8 : count < 8) :
    bs * roundUp ((intOfUint count).tdiv 8) bs = 2 ^ 32 := by
  have hdiv : ((count : ℕ) : ℤ).tdiv 8 = ((count / 8 : ℕ) : ℤ) := rfl
  have hzero : count / 8 = 0 := by omega
  rw [intOfUint_of_lt (by omega), hdiv, hzero]
  rcases mem_blockSizes_iff.mp hbs with rfl | rfl | rfl | rfl | rfl <;> rfl

/-- The blocks of a bitmap hold all its bits, or miss the last byte. -/
theorem bitmap_fits_iff (hbs : bs ∈ blockSizes) (h8 : 8 ≤ count) (h : count < 2 ^ 31) :
    (count + 7) / 8 ≤ roundUp ((intOfUint count).tdiv 8) bs * bs ↔ BitmapRoom bs count := by
  rw [bitmapBlockCount_of_le bs h8 h, BitmapRoom]
  rcases mem_blockSizes_iff.mp hbs with rfl | rfl | rfl | rfl | rfl <;> omega

/-- A bitmap with enough room takes less than a block more than it needs. -/
theorem bitmapBlockCount_le (hbs : bs ∈ blockSizes) (h8 : 8 ≤ count) (h : count < 2 ^ 31) :
    bs * roundUp ((intOfUint count).tdiv 8) bs ≤ count / 8 + bs := by
  rw [bitmapBlockCount_of_le bs h8 h]
  rcases mem_blockSizes_iff.mp hbs with rfl | rfl | rfl | rfl | rfl <;> omega

theorem bitmapBlockCount_le_max (hbs : bs ∈ blockSizes) (h : count < 2 ^ 31) :
    bs * roundUp ((intOfUint count).tdiv 8) bs ≤ 2 ^ 32 := by
  obtain ⟨-, hbound, -⟩ := blockSizes_bounds hbs
  by_cases h8 : 8 ≤ count
  · have := bitmapBlockCount_le hbs h8 h
    omega
  · exact (bitmapBlockCount_of_lt hbs (by omega)).le

/-- The blocks that the count of a bitmap names: none if it has less than eight bits. -/
theorem namedBlock_bitmapBlockCount (hbs : bs ∈ blockSizes) (h : count < 2 ^ 31) :
    namedBlock bs (roundUp ((intOfUint count).tdiv 8) bs) =
      if count < 8 then 0 else 1 + (count / 8 - 1) / bs := by
  obtain ⟨hbs512, hbs8192, -⟩ := blockSizes_bounds hbs
  by_cases h8 : count < 8
  · rw [if_pos h8, namedBlock, bitmapBlockCount_of_lt hbs h8]
    exact Nat.zero_div bs
  · have hle := bitmapBlockCount_le hbs (by omega) h
    rw [if_neg h8, namedBlock_of_lt (by omega) (by omega), bitmapBlockCount_of_le bs (by omega) h]

/-- Less than eight bits have no byte to make room for. -/
theorem namedBlock_bitmap_bounds (hbs : bs ∈ blockSizes) (h : count < 2 ^ 31) :
    count / 8 ≤ bs * namedBlock bs (roundUp ((intOfUint count).tdiv 8) bs) ∧
      bs * namedBlock bs (roundUp ((intOfUint count).tdiv 8) bs) ≤ count / 8 + bs := by
  rw [namedBlock_bitmapBlockCount hbs h]
  split
  · omega
  · rcases mem_blockSizes_iff.mp hbs with rfl | rfl | rfl | rfl | rfl <;> omega

end BlockCounts

theorem superblockCreate_spec (label : Memory) {bs ic dc : ℕ} (hbs : bs ∈ blockSizes)
    (hic : 0 < ic) (hic' : ic ≤ 65535) (hdc : 0 < dc) (hdc' : dc < 2 ^ 31) :
    ∃ sb, superblockCreate label bs ic dc = .ok sb ∧ Computed bs ic dc sb := by
  obtain ⟨hbs512, hbs8192, -⟩ := blockSizes_bounds hbs
  have hround : ∀ (size : ℤ) (n : ℕ), roundUp size n < 2 ^ 32 :=
    fun size n => Nat.mod_lt _ (by omega)
  have huint : ∀ n, uint n < 2 ^ 32 := fun n => Nat.mod_lt _ (by omega)
  have hsize : uint (ic * inodeSize) = ic * inodeSize := uint_of_lt (by
    simp only [inodeSize]
    omega)
  have hblocks : roundUp (uint (ic * inodeSize)) bs = 1 + (ic * inodeSize - 1) / bs := by
    have hle : (ic * inodeSize - 1) / bs ≤ ic * inodeSize - 1 := Nat.div_le_self _ _
    simp only [inodeSize] at hle hsize ⊢
    rw [hsize, roundUp_of_pos (by omega) (by omega), uint_of_lt (by omega)]
  -- rounding up by inodes per block gives the same number as rounding up by bytes
  have hsame : roundUp (intOfUint ic) (bs / inodeSize) = 1 + (ic * inodeSize - 1) / bs := by
    have hle : (ic - 1) / (bs / inodeSize) ≤ ic - 1 := Nat.div_le_self _ _
    rw [intOfUint_of_lt (by omega), roundUp_of_pos hic (by omega), uint_of_lt (by omega)]
    simp only [inodeSize]
    rcases mem_blockSizes_iff.mp hbs with rfl | rfl | rfl | rfl | rfl <;> omega
  refine ⟨_, if_pos ⟨by omega, hdc, hic⟩, ?_⟩
  constructor
  case blockSize => rfl
  case inodeCount => rfl
  case datablockCount => rfl
  case inodeBitmapStart => rfl
  case inodeBitmapBlockCount => rfl
  case datablockBitmapStart => rfl
  case datablockBitmapBlockCount => rfl
  case inodeStart => rfl
  case inodeBlockCount => exact hblocks
  case datablocksStart =>
    change uint (_ + roundUp (intOfUint ic) (bs / inodeSize)) = uint (_ + roundUp _ bs)
    rw [hsame, hblocks]
  case signed =>
    constructor
    · intro w hw
      simp only [Superblock.words, List.mem_cons, List.not_mem_nil, or_false] at hw
      rcases hw with rfl | rfl | rfl | rfl | rfl | rfl | rfl | rfl | rfl | rfl
      · omega
      · omega
      · exact hround _ _
      · exact huint _
      · exact hround _ _
      · exact huint _
      · omega
      · exact hround _ _
      · exact huint _
      · omega
    · intro i
      change strncpy (fun _ => 0) FS_SIGNATURE 3 i = FS_SIGNATURE i
      revert i
      decide
    · rfl
    · exact hbs

namespace Computed

variable {bs ic dc : ℕ} {sb : Superblock}

/-- Every region starts where the one before it ends, without wrapping around. -/
theorem starts_eq (h : Computed bs ic dc sb) (hbs : bs ∈ blockSizes) (hic : ic ≤ 65535)
    (hdc : dc < 2 ^ 31) :
    sb.datablockBitmapStart = 1 + sb.inodeBitmapBlockCount ∧
      sb.inodeStart = sb.datablockBitmapStart + sb.datablockBitmapBlockCount ∧
      sb.datablocksStart = sb.inodeStart + sb.inodeBlockCount ∧
      sb.datablocksStart + dc ≤ 2 ^ 32 := by
  have hib := bitmapBlockCount_le_max hbs (by omega : ic < 2 ^ 31)
  have hdb := bitmapBlockCount_le_max hbs hdc
  rw [← h.inodeBitmapBlockCount] at hib
  rw [← h.datablockBitmapBlockCount] at hdb
  have hit := h.inodeBlockCount
  have h1 := h.datablockBitmapStart
  have h2 := h.inodeStart
  have h3 := h.datablocksStart
  simp only [inodeSize] at hit
  unfold uint at h1 h2 h3
  rcases mem_blockSizes_iff.mp hbs with rfl | rfl | rfl | rfl | rfl <;> omega

/-- The regions as the tools address them follow one another. A bitmap of less than eight
bits has none of its own: it starts where the next table does. -/
theorem effective_starts (h : Computed bs ic dc sb) (hbs : bs ∈ blockSizes) (hic : ic ≤ 65535)
    (hdc : dc < 2 ^ 31) :
    (effective sb).inodeBitmapStart = 1 ∧
      (effective sb).datablockBitmapStart = 1 + (effective sb).inodeBitmapBlockCount ∧
      (effective sb).inodeStart =
        (effective sb).datablockBitmapStart + (effective sb).datablockBitmapBlockCount ∧
      (effective sb).inodeBlockCount = 1 + (ic * inodeSize - 1) / bs ∧
      (effective sb).datablocksStart =
        (effective sb).inodeStart + (effective sb).inodeBlockCount := by
  obtain ⟨hbs512, hbs8192, -⟩ := blockSizes_bounds hbs
  obtain ⟨h1, h2, h3, -⟩ := h.starts_eq hbs hic hdc
  obtain ⟨-, hib⟩ := namedBlock_bitmap_bounds hbs (by omega : ic < 2 ^ 31)
  obtain ⟨-, hdb⟩ := namedBlock_bitmap_bounds hbs hdc
  rw [← h.inodeBitmapBlockCount] at hib
  rw [← h.datablockBitmapBlockCount] at hdb
  have htable : bs * sb.inodeBlockCount ≤ ic * inodeSize + bs := by
    rw [h.inodeBlockCount]
    simp only [inodeSize]
    rcases mem_blockSizes_iff.mp hbs with rfl | rfl | rfl | rfl | rfl <;> omega
  simp only [inodeSize] at htable
  have hone : namedBlock bs 1 = 1 := namedBlock_of_lt (by omega) (by omega)
  have hit : namedBlock bs sb.inodeBlockCount = sb.inodeBlockCount :=
    namedBlock_of_lt (by omega) (by omega)
  have hstart₁ := namedBlock_add hbs (j := 1) (k := sb.inodeBitmapBlockCount)
    (by rw [hone, Nat.mul_add]; omega)
  rw [← h1, hone] at hstart₁
  have hstart₂ := namedBlock_add hbs (j := sb.datablockBitmapStart)
    (k := sb.datablockBitmapBlockCount) (by rw [hstart₁, Nat.mul_add, Nat.mul_add]; omega)
  rw [← h2] at hstart₂
  have hstart₃ := namedBlock_add hbs (j := sb.inodeStart) (k := sb.inodeBlockCount)
    (by rw [hstart₂, hstart₁, hit, Nat.mul_add, Nat.mul_add, Nat.mul_add]; omega)
  rw [← h3] at hstart₃
  simp only [effective, h.blockSize, h.inodeBitmapStart]
  exact ⟨hone, hstart₁, hstart₂, hit.trans h.inodeBlockCount, hstart₃⟩

/-- Whatever the counts, the tables end below 2^31 as the tools address them. -/
theorem effective_datablocksStart_lt (h : Computed bs ic dc sb) (hbs : bs ∈ blockSizes)
    (hic : ic ≤ 65535) (hdc : dc < 2 ^ 31) :
    bs * (effective sb).datablocksStart < 2 ^ 31 := by
  obtain ⟨h1, h2, h3, h4, h5⟩ := h.effective_starts hbs hic hdc
  obtain ⟨-, hib⟩ := namedBlock_bitmap_bounds hbs (by omega : ic < 2 ^ 31)
  obtain ⟨-, hdb⟩ := namedBlock_bitmap_bounds hbs hdc
  rw [← h.inodeBitmapBlockCount] at hib
  rw [← h.datablockBitmapBlockCount] at hdb
  have hibcount :
      (effective sb).inodeBitmapBlockCount = namedBlock bs sb.inodeBitmapBlockCount := by
    rw [← h.blockSize]
    rfl
  have hdbcount : (effective sb).datablockBitmapBlockCount =
      namedBlock bs sb.datablockBitmapBlockCount := by
    rw [← h.blockSize]
    rfl
  simp only [inodeSize] at h4
  rcases mem_blockSizes_iff.mp hbs with rfl | rfl | rfl | rfl | rfl <;> omega

/-- With eight bits in both bitmaps the numbers are the blocks they name. -/
theorem effective_eq (h : Computed bs ic dc sb) (hbs : bs ∈ blockSizes) (hic8 : 8 ≤ ic)
    (hic : ic ≤ 65535) (hdc8 : 8 ≤ dc) (hdc : dc < 2 ^ 31) : effective sb = sb := by
  obtain ⟨hbs512, -, -⟩ := blockSizes_bounds hbs
  obtain ⟨h1, h2, h3, -⟩ := h.starts_eq hbs hic hdc
  have hib := bitmapBlockCount_le hbs hic8 (by omega)
  have hdb := bitmapBlockCount_le hbs hdc8 hdc
  rw [← h.inodeBitmapBlockCount] at hib
  rw [← h.datablockBitmapBlockCount] at hdb
  have hit := h.inodeBlockCount
  have hstart := h.inodeBitmapStart
  have hsize := h.blockSize
  have hend : bs * sb.datablocksStart < 2 ^ 32 := by
    simp only [inodeSize] at hit
    rcases mem_blockSizes_iff.mp hbs with rfl | rfl | rfl | rfl | rfl <;> omega
  exact effective_of_le (by omega) (by rw [hsize]; exact hend) (by omega) (by omega) (by omega)

/-- Whatever the counts, in an image of at most 2^31 bytes the regions as the tools address
them follow one another, and at most the last byte of a bitmap lies in the next region. -/
theorem effective_regions (h : Computed bs ic dc sb) (hbs : bs ∈ blockSizes) (hic : 0 < ic)
    (hic' : ic ≤ 65535) (hdc : 0 < dc) (hdc' : dc < 2 ^ 31)
    (hend : bs * ((effective sb).datablocksStart + dc) ≤ 2 ^ 31) : Regions (effective sb) := by
  obtain ⟨h1, h2, h3, h4, h5⟩ := h.effective_starts hbs hic' hdc'
  obtain ⟨hib, -⟩ := namedBlock_bitmap_bounds hbs (by omega : ic < 2 ^ 31)
  obtain ⟨hdb, -⟩ := namedBlock_bitmap_bounds hbs hdc'
  rw [← h.inodeBitmapBlockCount, Nat.mul_comm] at hib
  rw [← h.datablockBitmapBlockCount, Nat.mul_comm] at hdb
  have hsize := h.blockSize
  have hicount := h.inodeCount
  have hdcount := h.datablockCount
  constructor
  case blockSize_mem =>
    rw [effective_blockSize, hsize]
    exact hbs
  case inodeBitmap_after => omega
  case datablockBitmap_after => omega
  case inodes_after => omega
  case datablocks_after => omega
  case inodeBitmap_near =>
    simp only [effective, hsize, hicount]
    exact hib
  case datablockBitmap_near =>
    simp only [effective, hsize, hdcount]
    exact hdb
  case inodes_fit =>
    rw [effective_inodeCount, effective_blockSize, hsize, hicount, h4]
    simp only [inodeSize]
    rcases mem_blockSizes_iff.mp hbs with rfl | rfl | rfl | rfl | rfl <;> omega
  case within =>
    rw [effective_blockSize, effective_datablockCount, hsize, hdcount, Nat.mul_comm]
    exact hend
  case inodeCount_pos =>
    rw [effective_inodeCount]
    omega
  case datablockCount_pos =>
    rw [effective_datablockCount]
    omega

/-- Where the numbers themselves end below 2^31 they are the ones addressed. -/
theorem regions (h : Computed bs ic dc sb) (hbs : bs ∈ blockSizes) (hic : 0 < ic)
    (hic' : ic ≤ 65535) (hdc : 0 < dc) (hdc' : dc < 2 ^ 31)
    (hend : bs * (sb.datablocksStart + dc) ≤ 2 ^ 31) : Regions sb := by
  obtain ⟨hbs512, -, -⟩ := blockSizes_bounds hbs
  obtain ⟨h1, h2, h3, -⟩ := h.starts_eq hbs hic' hdc'
  have hstart := h.inodeBitmapStart
  have hsize := h.blockSize
  have hle := Nat.mul_le_mul_left bs (Nat.le_add_right sb.datablocksStart dc)
  have heffective : effective sb = sb :=
    effective_of_le (by omega) (by rw [hsize]; omega) (by omega) (by omega) (by omega)
  have hr := h.effective_regions hbs hic hic' hdc hdc' (by rw [heffective]; exact hend)
  rwa [heffective] at hr

/-- With room in both bitmaps nothing lies in the next region. -/
theorem layout (h : Computed bs ic dc sb) (hbs : bs ∈ blockSizes) (hic : 0 < ic)
    (hic' : ic ≤ 65535) (hdc : 0 < dc) (hdc' : dc < 2 ^ 31) (hicroom : BitmapRoom bs ic)
    (hdcroom : BitmapRoom bs dc) (hend : bs * (sb.datablocksStart + dc) ≤ 2 ^ 31) :
    Layout sb := by
  have hr := h.regions hbs hic hic' hdc hdc' hend
  have hib := (bitmap_fits_iff hbs hicroom.1 (by omega)).mpr hicroom
  have hdb := (bitmap_fits_iff hbs hdcroom.1 hdc').mpr hdcroom
  exact
    { hr with
      inodeBitmap_fits := by
        rw [h.inodeCount, h.blockSize, h.inodeBitmapBlockCount]
        exact hib
      datablockBitmap_fits := by
        rw [h.datablockCount, h.blockSize, h.datablockBitmapBlockCount]
        exact hdb }

end Computed

/-- A write never shortens the image, and reaches the end of its data. -/
theorem blocksWrite_grows {bs len : ℕ} (first : ℕ) (data : Memory) (fs : File) (hbs : 0 < bs)
    (hlen : 0 < len) :
    ∃ fs', blocksWrite bs first data len fs = .ok fs' ∧ fs.size ≤ fs'.size ∧
      (bs * first < 2 ^ 31 → bs * first + len ≤ fs'.size) := by
  refine ⟨_, if_pos ⟨hbs, hlen⟩, ?_, ?_⟩
  · split <;> simp only [File.fwrite_size, File.fseek_size] <;> omega
  · intro hoff
    rw [uint_of_lt (by omega), File.fseek_of_lt fs hoff]
    split <;> simp only [File.fwrite_size, File.movedTo_size, File.movedTo_pos] <;> omega

/-- The loop reaches every data block below 2^31. If there is no other it changes nothing
before the first and writes nothing behind the last. -/
theorem emptyBlocksLoop_spec (sb : Superblock) {bs : ℕ} (i n : ℕ) (fs : File) (hbs : 0 < bs)
    (hfits : sb.datablocksStart + i + n ≤ 2 ^ 32) :
    ∃ fs', emptyBlocksLoop sb bs i n fs = .ok fs' ∧ fs.size ≤ fs'.size ∧
      (∀ j, i ≤ j → j < i + n → bs * (sb.datablocksStart + j) < 2 ^ 31 →
        bs * (sb.datablocksStart + j) + bs ≤ fs'.size) ∧
      (bs * (sb.datablocksStart + (i + n)) ≤ 2 ^ 31 →
        (∀ a < bs * (sb.datablocksStart + i), fs'.bytes a = fs.bytes a) ∧
        fs'.size ≤ max fs.size (bs * (sb.datablocksStart + (i + n)))) := by
  induction n generalizing i fs with
  | zero =>
    exact ⟨fs, rfl, Nat.le_refl _, fun j hij hji => by omega,
      fun _ => ⟨fun a _ => rfl, Nat.le_max_left _ _⟩⟩
  | succ n ih =>
    have hblock : uint (sb.datablocksStart + i) = sb.datablocksStart + i :=
      uint_of_lt (by omega)
    obtain ⟨fs₁, hok₁, hsize₁, hreach₁⟩ :=
      blocksWrite_grows (sb.datablocksStart + i) (fun _ => 0) fs hbs hbs
    obtain ⟨fs₂, hok₂, hsize₂, hreach₂, hsame₂⟩ := ih (i + 1) fs₁ (by omega)
    refine ⟨fs₂, ?_, by omega, ?_, ?_⟩
    · simp only [emptyBlocksLoop, hblock, hok₁, ok_bind, hok₂]
    · intro j hij hji hoff
      by_cases hj : j = i
      · subst hj
        have := hreach₁ hoff
        omega
      · exact hreach₂ j (by omega) (by omega) hoff
    · intro hend
      have hnext : bs * (sb.datablocksStart + i) + bs = bs * (sb.datablocksStart + (i + 1)) := by
        ring
      have hlast : bs * (sb.datablocksStart + (i + 1)) ≤
          bs * (sb.datablocksStart + (i + (n + 1))) := Nat.mul_le_mul_left _ (by omega)
      have hsucc : i + 1 + n = i + (n + 1) := by omega
      rw [hsucc] at hsame₂
      obtain ⟨hbytes₂, hsize₂'⟩ := hsame₂ hend
      obtain ⟨fs₁', hok₁', hbytes, hsize₁'⟩ :=
        blocksWrite_block (sb.datablocksStart + i) (fun _ => 0) fs hbs (Nat.le_refl bs) (by omega)
      rw [hok₁] at hok₁'
      cases hok₁'
      refine ⟨fun a ha => ?_, by omega⟩
      have hbefore : a / bs ≠ sb.datablocksStart + i := fun h => by
        have := ((div_eq_iff_mem_block hbs).mp h).1
        omega
      rw [hbytes₂ a (by omega), hbytes, if_neg hbefore]

/-- The loop writes to the blocks that the numbers name. -/
theorem emptyBlocksLoop_effective {sb : Superblock} (hbs : sb.blockSize ∈ blockSizes) (i n : ℕ)
    (fs : File) :
    emptyBlocksLoop (effective sb) sb.blockSize i n fs =
      emptyBlocksLoop sb sb.blockSize i n fs := by
  have hwrite : ∀ i fs, blocksWrite sb.blockSize (uint ((effective sb).datablocksStart + i))
      (fun _ => 0) sb.blockSize fs =
        blocksWrite sb.blockSize (uint (sb.datablocksStart + i)) (fun _ => 0) sb.blockSize fs :=
    fun i => blocksWrite_congr (uint_namedBlock_add_nat hbs _ i) _ _
  induction n generalizing i fs with
  | zero => rfl
  | succ n ih =>
    rw [emptyBlocksLoop, emptyBlocksLoop]
    simp only [hwrite, ih]

/-- A new bitmap with bit 0 set. -/
theorem reservedBitmap_spec {count : ℕ} (h0 : 0 < count) (h : count < 2 ^ 31) :
    ∃ blank bitmap, bitmapCreate count = .ok blank ∧ bitmapSet blank 0 true = .ok bitmap ∧
      bitmap.size = (count + 7) / 8 ∧ ∀ i, bitmap.test i = true ↔ i = 0 := by
  have hcreate : bitmapCreate count =
      .ok { count := count, size := (count + 7) / 8, bits := fun _ => 0 } := by
    rw [bitmapCreate, if_pos h0, roundUpSigned_eight h0 h]
  obtain ⟨bitmap, hset, -, hsize, htest⟩ := bitmapSet_spec
    { count := count, size := (count + 7) / 8, bits := fun _ => 0 } 0 true (by omega)
    (by simp only; omega)
  refine ⟨_, bitmap, hcreate, hset, hsize, fun i => ?_⟩
  rw [htest]
  by_cases hi : i = 0
  · rw [hi, Function.update_self]
    exact iff_of_true rfl rfl
  · rw [Function.update_of_ne hi]
    exact iff_of_false (by simp [Bitmap.test, bitAt]) hi

/-- What the finished image holds. -/
structure Created (sb : Superblock) (m : Memory) : Prop where
  head : ∀ k < Superblock.byteSize, m k = sb.toMemory k
  inodeBit_iff : ∀ i < sb.inodeCount, inodeBit sb m i = true ↔ i = 0
  dataBit_iff : ∀ b < sb.datablockCount, dataBit sb m b = true ↔ b = 0
  slot : ∀ a < sb.inodeCount * inodeSize, m (sb.blockSize * sb.inodeStart + a) = 0

theorem Created.empty {sb : Superblock} {m : Memory} (h : Created sb m) : Empty sb m where
  inodeBit_iff := h.inodeBit_iff
  dataBit_iff := h.dataBit_iff
  inode i hi := inodeAt_cleared fun k hk => by
    simp only [inodeSize] at hk
    rw [Nat.add_assoc]
    exact h.slot _ (by simp only [inodeSize]; omega)

/-- What lies before the data region is not touched by the loop over its blocks. -/
theorem Created.of_same {sb : Superblock} {m m' : Memory} (h : Created sb m) (hl : Layout sb)
    (hsame : ∀ a < sb.blockSize * sb.datablocksStart, m' a = m a) : Created sb m' := by
  have hbounds := hl.blockSize_bounds
  have hbytes : Superblock.byteSize = 78 := rfl
  obtain ⟨hib, hdb, hit⟩ := hl.tables_fit
  obtain ⟨h1, h2, h3, h4, h5⟩ := hl.regions.offsets
  constructor
  · intro k hk
    rw [hsame k (by omega), h.head k hk]
  · intro i hi
    rw [← h.inodeBit_iff i hi, inodeBit, inodeBit, bitAt, bitAt, hsame _ (by omega)]
  · intro b hb
    rw [← h.dataBit_iff b hb, dataBit, dataBit, bitAt, bitAt, hsame _ (by omega)]
  · intro a ha
    rw [hsame _ (by omega), h.slot a ha]

/-- The run of `main`, once its arguments are accepted. -/
theorem fsCreate_eq {label : Memory} {bs ic dc : ℕ} {sb : Superblock} {fs₀ : File}
    {iblank ib dblank db : Bitmap} {itab : InodeTable} (hlabel : label 0 ≠ 0)
    (hbs : bs ∈ blockSizes) (hic : 0 < ic) (hic' : ic ≤ 65535) (hdc : 0 < dc)
    (hsb : superblockCreate label bs ic dc = .ok sb) (hsize : sb.blockSize = bs)
    (hfs₀ : superblockWrite sb File.empty = .ok fs₀)
    (hiblank : bitmapCreate ic = .ok iblank) (hib : bitmapSet iblank 0 true = .ok ib)
    (hdblank : bitmapCreate dc = .ok dblank) (hdb : bitmapSet dblank 0 true = .ok db)
    (hitab : inodeTableCreate ic = .ok itab) :
    fsCreate label bs ic dc = writeMetadata sb ib db itab fs₀ >>= emptyBlocksLoop sb bs 0 dc := by
  have hshown : ¬ strnlen label (SUPERBLOCK_LABEL_LENGTH - 1) < 1 := by
    simp only [strnlen, SUPERBLOCK_LABEL_LENGTH, Nat.reduceSub]
    rw [cut_succ 30 hlabel, List.length_cons]
    omega
  have hpos : 0 < bs ∧ (bs : ℤ).tmod 512 = 0 := by
    rcases mem_blockSizes_iff.mp hbs with rfl | rfl | rfl | rfl | rfl <;> decide
  have haccept : ¬ (strnlen label (SUPERBLOCK_LABEL_LENGTH - 1) < 1 ∨ (bs : ℤ) ≤ 0 ∨
      (ic : ℤ) ≤ 0 ∨ (dc : ℤ) ≤ 0) := by
    omega
  unfold fsCreate
  rw [if_neg haccept, if_neg (by omega), if_neg (by omega)]
  simp only [Int.toNat_natCast, hsb, ok_bind, hfs₀, hiblank, hib, hdblank, hdb, hitab,
    writeMetadata, hsize]
  cases bitmapWrite ib sb.inodeBitmapStart bs fs₀ with
  | error e => rfl
  | ok fs₁ =>
    simp only [ok_bind]
    cases bitmapWrite db sb.datablockBitmapStart bs fs₁ with
    | error e => rfl
    | ok fs₂ => rfl

/-- The arguments of an image that was made passed the checks of `main`. -/
theorem fsCreate_accepts {label : Memory} {bs ic dc : ℕ} {fs : File}
    (h : fsCreate label bs ic dc = .ok fs) : label 0 ≠ 0 ∧ 0 < ic ∧ ic ≤ 65535 ∧ 0 < dc := by
  unfold fsCreate at h
  split at h
  · cases h
  next hshown =>
    split at h
    · cases h
    · split at h
      · cases h
      · refine ⟨fun h0 => hshown (Or.inl ?_), by omega, by omega, by omega⟩
        simp [strnlen, SUPERBLOCK_LABEL_LENGTH, cut, h0]

/-- Whatever the layout, the tables are written and nothing is cut off. -/
theorem writeMetadata_total (sb : Superblock) (ib db : Bitmap) (itab : InodeTable) (fs : File)
    (hbs : sb.blockSize ∈ blockSizes) (hib : 0 < ib.size) (hdb : 0 < db.size)
    (hit : 0 < itab.size) : ∃ fs', writeMetadata sb ib db itab fs = .ok fs' := by
  have hbs0 : 0 < sb.blockSize := by
    obtain ⟨hbs512, -, -⟩ := blockSizes_bounds hbs
    omega
  obtain ⟨fs₁, hok₁, -⟩ := blocksWrite_grows sb.inodeBitmapStart ib.bits fs hbs0 hib
  obtain ⟨fs₂, hok₂, -⟩ := blocksWrite_grows sb.datablockBitmapStart db.bits fs₁ hbs0 hdb
  obtain ⟨fs₃, hok₃, -⟩ := blocksWrite_grows sb.inodeStart itab.inodes fs₂ hbs0 hit
  refine ⟨fs₃, ?_⟩
  simp only [writeMetadata, bitmapWrite, if_pos hbs, hok₁, ok_bind, hok₂, inodeTableWrite, hok₃]

/-- Writing the metadata extends a file at most to the end of data block 0. -/
theorem Computed.metadata_size {bs ic dc : ℕ} {sb : Superblock} (h : Computed bs ic dc sb)
    (hr : Regions (effective sb)) {ib db : Bitmap} {itab : InodeTable} {fs fs' : File}
    (hib : ib.size = (ic + 7) / 8) (hdb : db.size = (dc + 7) / 8)
    (hit : itab.size = ic * inodeSize) (hrun : writeMetadata sb ib db itab fs = .ok fs') :
    fs'.size ≤ max fs.size (bs * (effective sb).datablocksStart + bs) := by
  rw [← writeMetadata_effective (by exact hr.blockSize_mem)] at hrun
  obtain ⟨fs'', hrun', -, -, hsize⟩ := writeMetadata_bytes ib db itab fs hr
    (by rw [effective_inodeCount, h.inodeCount, hib])
    (by rw [effective_datablockCount, h.datablockCount, hdb])
    (by rw [effective_inodeCount, h.inodeCount, hit])
  cases hrun.symm.trans hrun'
  rwa [effective_blockSize, h.blockSize] at hsize

/-- Accepted arguments give an image. It reaches every data block addressed below
2^31, and ends behind the last if there is no other; where the regions are in order it
holds empty tables. -/
theorem fsCreate_spec {label : Memory} {bs ic dc : ℕ} (hlabel : label 0 ≠ 0)
    (hbs : bs ∈ blockSizes) (hic : 0 < ic) (hic' : ic ≤ 65535) (hdc : 0 < dc)
    (hdc' : dc < 2 ^ 31) :
    ∃ sb fs, superblockCreate label bs ic dc = .ok sb ∧ Computed bs ic dc sb ∧
      fsCreate label bs ic dc = .ok fs ∧
      (∀ j < dc, bs * ((effective sb).datablocksStart + j) < 2 ^ 31 →
        bs * ((effective sb).datablocksStart + j) + bs ≤ fs.size) ∧
      (bs * ((effective sb).datablocksStart + dc) ≤ 2 ^ 31 →
        fs.size ≤ bs * ((effective sb).datablocksStart + dc)) ∧
      (Layout sb → Created sb fs.bytes) := by
  obtain ⟨hbs0, -, -⟩ := blockSizes_bounds hbs
  obtain ⟨sb, hsb, hcomp⟩ := superblockCreate_spec label hbs hic hic' hdc hdc'
  have hsize := hcomp.blockSize
  obtain ⟨iblank, ib, hiblank, hib, hibsize, hibtest⟩ :=
    reservedBitmap_spec hic (by omega : ic < 2 ^ 31)
  obtain ⟨dblank, db, hdblank, hdb, hdbsize, hdbtest⟩ := reservedBitmap_spec hdc hdc'
  have hitsize : uint (ic * inodeSize) = ic * inodeSize := uint_of_lt (by
    simp only [inodeSize]
    omega)
  have hitab : inodeTableCreate ic = .ok ⟨ic, ic * inodeSize, fun _ => 0, ic⟩ := by
    rw [inodeTableCreate, if_pos hic, hitsize, Nat.mul_div_cancel ic (by decide)]
  obtain ⟨fs₀, hfs₀, hhead, hfs₀_size⟩ :=
    blocksWrite_block 0 sb.toMemory File.empty (by omega : 0 < bs) (Nat.le_refl bs) (by omega)
  rw [← hsize] at hfs₀
  have hrun := fsCreate_eq hlabel hbs hic hic' hdc hsb hsize hfs₀ hiblank hib hdblank hdb hitab
  obtain ⟨fs₁, hmeta⟩ := writeMetadata_total sb ib db ⟨ic, ic * inodeSize, fun _ => 0, ic⟩ fs₀
    (by rw [hsize]; exact hbs) (by omega) (by omega) (by simp only [inodeSize]; omega)
  have hstart := hcomp.effective_datablocksStart_lt hbs hic' hdc'
  have hstart_le := Nat.le_mul_of_pos_left (effective sb).datablocksStart (by omega : 0 < bs)
  obtain ⟨fs, hloop, -, hreach, hsame⟩ :=
    emptyBlocksLoop_spec (effective sb) 0 dc fs₁ (by omega : 0 < bs) (by omega)
  rw [← hsize, emptyBlocksLoop_effective (by rw [hsize]; exact hbs), hsize] at hloop
  rw [hmeta, ok_bind, hloop] at hrun
  refine ⟨sb, fs, hsb, hcomp, hrun, fun j hj => hreach j (Nat.zero_le _) (by omega), ?_, ?_⟩
  · intro hend
    have hmeta_size := hcomp.metadata_size (hcomp.effective_regions hbs hic hic' hdc hdc' hend)
      hibsize hdbsize rfl hmeta
    have hloop_size := (hsame (by rwa [Nat.zero_add])).2
    have hfull := Nat.mul_le_mul_left bs
      (by omega : (effective sb).datablocksStart + 1 ≤ (effective sb).datablocksStart + dc)
    simp only [Nat.zero_add, Nat.mul_add, Nat.mul_one] at hloop_size hfull ⊢
    have hempty : File.empty.size = 0 := rfl
    omega
  intro hl
  rw [effective_of_regions hl.regions] at hsame
  have hwithin := hl.within
  obtain ⟨fs₁', hmeta', hback, -⟩ := writeMetadata_spec ib db
    ⟨ic, ic * inodeSize, fun _ => 0, ic⟩ fs₀ hl (by rw [hcomp.inodeCount, hibsize])
    (by rw [hcomp.datablockCount, hdbsize]) (by rw [hcomp.inodeCount])
  rw [hmeta] at hmeta'
  cases hmeta'
  have hcreated : Created sb fs₁.bytes := by
    constructor
    · intro k hk
      have hk' : k < sb.blockSize := by
        simp only [Superblock.byteSize] at hk
        omega
      rw [hback.head k hk', hhead, Nat.div_eq_of_lt (by omega), if_pos rfl,
        Nat.mod_eq_of_lt (by omega), if_pos (by omega)]
    · intro i hi
      rw [hback.inodeBit i hi, hibtest]
    · intro b hb
      rw [hback.dataBit b hb, hdbtest]
    · intro a ha
      exact hback.slot a ha
  rw [hcomp.datablockCount, hsize, Nat.mul_comm] at hwithin
  refine hcreated.of_same hl fun a ha => (hsame (by rw [Nat.zero_add]; exact hwithin)).1 a ?_
  rwa [hsize] at ha

section Finished

variable {bs ic dc : ℕ} {sb : Superblock} {fs : File}

theorem WellFormedEmpty.room (h : WellFormedEmpty sb fs) (hcomp : Computed bs ic dc sb)
    (hbs : bs ∈ blockSizes) (hic : ic ≤ 65535) (hdc : dc < 2 ^ 31) (hsize : fs.size < 2 ^ 31) :
    BitmapRoom bs ic ∧ BitmapRoom bs dc := by
  have hregion : ∀ n, n ≤ sb.datablocksStart → bs * n < 2 ^ 31 := by
    intro n hn
    calc
      bs * n ≤ bs * (sb.datablocksStart + sb.datablockCount) := Nat.mul_le_mul_left _ (by omega)
      _ ≤ fs.size := by
        rw [← hcomp.blockSize]
        exact h.covers
      _ < 2 ^ 31 := hsize
  have h1 := h.datablockBitmap_after
  have h2 := h.inodes_after
  have h3 := h.datablocks_after
  have hib := hregion sb.inodeBitmapBlockCount (by omega)
  have hdb := hregion sb.datablockBitmapBlockCount (by omega)
  have hibfits := h.inodeBitmap_fits
  have hdbfits := h.datablockBitmap_fits
  rw [hcomp.inodeCount, hcomp.blockSize, hcomp.inodeBitmapBlockCount] at hibfits
  rw [hcomp.datablockCount, hcomp.blockSize, hcomp.datablockBitmapBlockCount] at hdbfits
  rw [hcomp.inodeBitmapBlockCount] at hib
  rw [hcomp.datablockBitmapBlockCount] at hdb
  -- a bitmap of less than eight bits would take 2^32 bytes
  have hic8 : 8 ≤ ic := by
    by_contra hlt
    have := bitmapBlockCount_of_lt hbs (by omega : ic < 8)
    omega
  have hdc8 : 8 ≤ dc := by
    by_contra hlt
    have := bitmapBlockCount_of_lt hbs (by omega : dc < 8)
    omega
  exact ⟨(bitmap_fits_iff hbs hic8 (by omega)).mp hibfits,
    (bitmap_fits_iff hbs hdc8 hdc).mp hdbfits⟩

/-- An image of less than 2^31 bytes has all its blocks below 2^31, where the tools
address them. -/
theorem Computed.within (hcomp : Computed bs ic dc sb) (hbs : bs ∈ blockSizes)
    (hic : ic ≤ 65535) (hdc : 0 < dc) (hdc' : dc < 2 ^ 31)
    (hreach : ∀ j < dc, bs * ((effective sb).datablocksStart + j) < 2 ^ 31 →
      bs * ((effective sb).datablocksStart + j) + bs ≤ fs.size) (hsize : fs.size < 2 ^ 31) :
    bs * ((effective sb).datablocksStart + dc) ≤ fs.size := by
  have hstart := hcomp.effective_datablocksStart_lt hbs hic hdc'
  have hend : bs * ((effective sb).datablocksStart + dc) < 2 ^ 31 := by
    by_contra hover
    have hlast := hreach (2 ^ 31 / bs - 1 - (effective sb).datablocksStart)
    rcases mem_blockSizes_iff.mp hbs with rfl | rfl | rfl | rfl | rfl <;> omega
  have hlast := hreach (dc - 1) (by omega)
  rcases mem_blockSizes_iff.mp hbs with rfl | rfl | rfl | rfl | rfl <;> omega

theorem Created.wellFormedEmpty (h : Created sb fs.bytes) (hl : Layout sb)
    (hcovers : sb.blockSize * (sb.datablocksStart + sb.datablockCount) ≤ fs.size)
    (hblocks : sb.inodeBlockCount = sb.datablocksStart - sb.inodeStart)
    (hic : sb.inodeCount ≤ 65535) (hdc : sb.datablockCount < 2 ^ 31) :
    WellFormedEmpty sb fs := by
  have hbounds := hl.blockSize_bounds
  have hafter₁ := hl.inodeBitmap_after
  have hafter₂ := hl.datablockBitmap_after
  have hafter₃ := hl.inodes_after
  have hdata := Nat.mul_le_mul hbounds.1 hl.datablockCount_pos
  obtain ⟨h1, h2, h3, h4, h5⟩ := hl.regions.offsets
  constructor
  case inodeBitmap_after => exact hl.inodeBitmap_after
  case datablockBitmap_after => exact hl.datablockBitmap_after
  case inodes_after => exact hl.inodes_after
  case inodeBlockCount => exact hblocks
  case datablocks_after => exact hl.datablocks_after
  case covers => exact hcovers
  case inodeBitmap_fits => exact hl.inodeBitmap_fits
  case datablockBitmap_fits => exact hl.datablockBitmap_fits
  case inodes_fit => exact hl.inodes_fit
  case inodeBitmap_read =>
    obtain ⟨p, hread⟩ := bitmapRead_spec sb.inodeBitmapStart sb.inodeCount fs hl.blockSize_mem
      hl.inodeCount_pos (by omega) (by omega)
    refine ⟨_, _, hread, fun i hi => ?_⟩
    rw [bitmapOf_test hi]
    exact h.inodeBit_iff i hi
  case datablockBitmap_read =>
    obtain ⟨p, hread⟩ := bitmapRead_spec sb.datablockBitmapStart sb.datablockCount fs
      hl.blockSize_mem hl.datablockCount_pos hdc (by omega)
    refine ⟨_, _, hread, fun b hb => ?_⟩
    rw [bitmapOf_test hb]
    exact h.dataBit_iff b hb
  case inodes_read =>
    obtain ⟨p, hread⟩ := inodeTableRead_spec sb.inodeCount sb.inodeStart fs hl.inodeCount_pos
      (by omega) (by omega : 0 < sb.blockSize) (by simp only [inodeSize]; omega) (by omega)
    refine ⟨_, _, hread, fun k hk => ?_⟩
    simp only [tableOf, if_pos hk]
    exact h.slot k hk

/-- Enough room in both bitmaps gives the layout the tools rely on. -/
theorem Computed.finished (hcomp : Computed bs ic dc sb) (hbs : bs ∈ blockSizes) (hic : 0 < ic)
    (hic' : ic ≤ 65535) (hdc : 0 < dc) (hdc' : dc < 2 ^ 31) (hicroom : BitmapRoom bs ic)
    (hdcroom : BitmapRoom bs dc)
    (hreach : ∀ j < dc, bs * ((effective sb).datablocksStart + j) < 2 ^ 31 →
      bs * ((effective sb).datablocksStart + j) + bs ≤ fs.size) (hsize : fs.size < 2 ^ 31) :
    Layout sb ∧ sb.blockSize * (sb.datablocksStart + sb.datablockCount) ≤ fs.size := by
  have hcovers := hcomp.within hbs hic' hdc hdc' hreach hsize
  rw [hcomp.effective_eq hbs hicroom.1 hic' hdcroom.1 hdc'] at hcovers
  refine ⟨hcomp.layout hbs hic hic' hdc hdc' hicroom hdcroom (by omega), ?_⟩
  rw [hcomp.blockSize, hcomp.datablockCount]
  exact hcovers

end Finished

/-- fs_create always makes an image of accepted arguments; one below 2^31
bytes is an empty file system exactly when both bitmaps have room. -/
theorem fsCreate_wellFormed_iff (label : Memory) (bs ic dc : ℕ) (hlabel : label 0 ≠ 0)
    (hbs : bs ∈ blockSizes) (hic : 0 < ic) (hic' : ic ≤ 65535) (hdc : 0 < dc)
    (hdc' : dc < 2 ^ 31) :
    ∃ sb fs, superblockCreate label bs ic dc = .ok sb ∧ fsCreate label bs ic dc = .ok fs ∧
      (fs.size < 2 ^ 31 → (WellFormedEmpty sb fs ↔ BitmapRoom bs ic ∧ BitmapRoom bs dc)) := by
  obtain ⟨sb, fs, hsb, hcomp, hfs, hreach, -, hcreated⟩ :=
    fsCreate_spec hlabel hbs hic hic' hdc hdc'
  refine ⟨sb, fs, hsb, hfs, fun hsize => ⟨fun h => h.room hcomp hbs hic' hdc' hsize, ?_⟩⟩
  intro hroom
  obtain ⟨hl, hcovers⟩ :=
    hcomp.finished hbs hic hic' hdc hdc' hroom.1 hroom.2 hreach hsize
  obtain ⟨-, -, hlast, -⟩ := hcomp.starts_eq hbs hic' hdc'
  apply (hcreated hl).wellFormedEmpty hl hcovers
  · omega
  · rw [hcomp.inodeCount]
    exact hic'
  · rw [hcomp.datablockCount]
    exact hdc'

theorem fsCreate_wellFormed_iff_small :
    ∃ sb fs, superblockCreate FS_SIGNATURE 512 8 8 = .ok sb ∧
      fsCreate FS_SIGNATURE 512 8 8 = .ok fs ∧ fs.size < 2 ^ 31 ∧ WellFormedEmpty sb fs := by
  obtain ⟨sb, fs, hsb, hfs, hiff⟩ := fsCreate_wellFormed_iff FS_SIGNATURE 512 8 8 (by decide)
    (by decide) (by decide) (by decide) (by decide) (by decide)
  have hsize : (fsCreate FS_SIGNATURE 512 8 8).map File.size = .ok 6144 := by decide +kernel
  rw [show fsCreate FS_SIGNATURE 512 8 8 = .ok fs from hfs] at hsize
  have hfs_size : fs.size = 6144 := Except.ok.inj hsize
  exact ⟨sb, fs, hsb, hfs, by omega, (hiff (by omega)).mpr (by decide)⟩

/-- 4097 inodes need 513 bytes of bitmap and get one block of 512: the bit of
inode 4096 is the bit of data block 0, which is set. -/
theorem fsCreate_shortBitmap :
    ∃ sb fs, superblockCreate FS_SIGNATURE 512 4097 8 = .ok sb ∧
      fsCreate FS_SIGNATURE 512 4097 8 = .ok fs ∧ fs.size < 2 ^ 31 ∧
      (∃ bitmap fs', bitmapRead sb.inodeBitmapStart 4097 512 fs = .ok (bitmap, fs') ∧
        bitmap.test 4096 = true) ∧ ¬ WellFormedEmpty sb fs := by
  obtain ⟨sb, fs, hsb, hcomp, hfs, -⟩ := fsCreate_spec
    (by decide : FS_SIGNATURE 0 ≠ 0) (by decide : 512 ∈ blockSizes) (by decide : 0 < 4097)
    (by decide) (by decide : 0 < 8) (by decide)
  have hsize : (fsCreate FS_SIGNATURE 512 4097 8).map File.size = .ok 268288 := by
    decide +kernel
  have hread : (fsCreate FS_SIGNATURE 512 4097 8 >>= fun fs =>
      (bitmapRead 1 4097 512 fs).map fun r => r.1.test 4096) = .ok true := by
    decide +kernel
  rw [show fsCreate FS_SIGNATURE 512 4097 8 = .ok fs from hfs] at hsize hread
  have hfs_size : fs.size = 268288 := Except.ok.inj hsize
  refine ⟨sb, fs, hsb, hfs, by omega, ?_, ?_⟩
  · rw [hcomp.inodeBitmapStart]
    obtain ⟨p, hok⟩ := bitmapRead_spec 1 4097 fs (by decide : 512 ∈ blockSizes) (by decide)
      (by decide) (by decide)
    rw [ok_bind, hok] at hread
    exact ⟨_, _, hok, Except.ok.inj hread⟩
  · intro h
    exact absurd (h.room hcomp (by decide) (by decide) (by decide) (by omega)).1 (by decide)

/-- With at most 65536 data blocks such an image is well formed, so that the
tools preserve whatever is then stored in it. -/
theorem fsCreate_wellFormed {label : Memory} {bs ic dc : ℕ} (hlabel : label 0 ≠ 0)
    (hbs : bs ∈ blockSizes) (hic : ic ≤ 65535) (hdc : dc ≤ 65536) (hicroom : BitmapRoom bs ic)
    (hdcroom : BitmapRoom bs dc) :
    ∃ sb fs, superblockCreate label bs ic dc = .ok sb ∧ fsCreate label bs ic dc = .ok fs ∧
      (fs.size < 2 ^ 31 → WellFormed sb fs ∧ Empty sb fs.bytes) := by
  have hic8 := hicroom.1
  have hdc8 := hdcroom.1
  obtain ⟨sb, fs, hsb, hcomp, hfs, hreach, -, hcreated⟩ :=
    fsCreate_spec hlabel hbs (by omega) hic (by omega) (by omega : dc < 2 ^ 31)
  refine ⟨sb, fs, hsb, hfs, fun hsize => ?_⟩
  obtain ⟨hl, hcovers⟩ := hcomp.finished hbs (by omega) hic (by omega) (by omega) hicroom
    hdcroom hreach hsize
  have hempty := (hcreated hl).empty
  obtain ⟨hread, hvalid⟩ := hcomp.signed.read (hcreated hl).head
  refine ⟨hempty.wellFormed hread hvalid hl hcovers ?_ ?_, hempty⟩
  · rw [hcomp.inodeCount]
    exact hic
  · rw [hcomp.datablockCount]
    exact hdc

end RathalOS.CreateImage
