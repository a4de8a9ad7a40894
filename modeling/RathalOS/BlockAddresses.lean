import RathalOS.Reservations

/-!
Block numbers as the tools use them. A number is multiplied by the block size, and
the product is a 32-bit offset, so that numbers which are 2^32 bytes apart name the
same block. Replacing every number of a superblock by the least one that names the
same block changes no run of add_file.
-/
namespace RathalOS.BlockAddresses

open ByteMemory ByteFile Blocks Bitmaps CStrings Superblocks Inodes FileAccess Images AddFile
open Reservations

/-- The block that a number names. -/
def namedBlock (blockSize k : ℕ) : ℕ := uint (blockSize * k) / blockSize

/-- The superblock with the blocks its numbers name. -/
def effective (sb : Superblock) : Superblock :=
  { sb with
    inodeBitmapStart := namedBlock sb.blockSize sb.inodeBitmapStart
    inodeBitmapBlockCount := namedBlock sb.blockSize sb.inodeBitmapBlockCount
    datablockBitmapStart := namedBlock sb.blockSize sb.datablockBitmapStart
    datablockBitmapBlockCount := namedBlock sb.blockSize sb.datablockBitmapBlockCount
    inodeStart := namedBlock sb.blockSize sb.inodeStart
    inodeBlockCount := namedBlock sb.blockSize sb.inodeBlockCount
    datablocksStart := namedBlock sb.blockSize sb.datablocksStart }

@[simp] theorem effective_blockSize (sb : Superblock) :
    (effective sb).blockSize = sb.blockSize := rfl

@[simp] theorem effective_inodeCount (sb : Superblock) :
    (effective sb).inodeCount = sb.inodeCount := rfl

@[simp] theorem effective_datablockCount (sb : Superblock) :
    (effective sb).datablockCount = sb.datablockCount := rfl

section Numbers

variable {bs k : ℕ}

theorem namedBlock_of_lt (hbs : 0 < bs) (h : bs * k < 2 ^ 32) : namedBlock bs k = k := by
  rw [namedBlock, uint_of_lt h, Nat.mul_div_cancel_left k hbs]

theorem namedBlock_add (hbs : bs ∈ blockSizes) {j : ℕ}
    (h : bs * (namedBlock bs j + namedBlock bs k) < 2 ^ 32) :
    namedBlock bs (j + k) = namedBlock bs j + namedBlock bs k := by
  unfold namedBlock uint at h ⊢
  rcases mem_blockSizes_iff.mp hbs with rfl | rfl | rfl | rfl | rfl <;> omega

/-- Block sizes divide 2^32, so no offset lies inside a block. -/
theorem uint_namedBlock (hbs : bs ∈ blockSizes) (k : ℕ) :
    uint (bs * namedBlock bs k) = uint (bs * k) := by
  unfold namedBlock uint
  rcases mem_blockSizes_iff.mp hbs with rfl | rfl | rfl | rfl | rfl <;> omega

theorem uint_namedBlock_add (hbs : bs ∈ blockSizes) (k : ℕ) (b : ℤ) :
    uint (bs * uintOfInt ((namedBlock bs k : ℕ) + b)) = uint (bs * uintOfInt ((k : ℤ) + b)) := by
  unfold namedBlock uint uintOfInt
  rcases mem_blockSizes_iff.mp hbs with rfl | rfl | rfl | rfl | rfl <;> omega

theorem uint_namedBlock_add_nat (hbs : bs ∈ blockSizes) (k i : ℕ) :
    uint (bs * uint (namedBlock bs k + i)) = uint (bs * uint (k + i)) := by
  unfold namedBlock uint
  rcases mem_blockSizes_iff.mp hbs with rfl | rfl | rfl | rfl | rfl <;> omega

end Numbers

section Runs

variable {sb : Superblock} (hbs : sb.blockSize ∈ blockSizes) (stale : Memory)

theorem blocksWrite_congr {bs first first' : ℕ} (h : uint (bs * first) = uint (bs * first'))
    (data : Memory) (len : ℕ) (fs : File) :
    blocksWrite bs first data len fs = blocksWrite bs first' data len fs := by
  rw [blocksWrite, blocksWrite, h]

include hbs

theorem blocksWrite_effective (blk : ℤ) (data : Memory) (len : ℕ) (fs : File) :
    blocksWrite sb.blockSize (uintOfInt ((effective sb).datablocksStart + blk)) data len fs =
      blocksWrite sb.blockSize (uintOfInt (sb.datablocksStart + blk)) data len fs :=
  blocksWrite_congr (uint_namedBlock_add hbs _ blk) data len fs

theorem allocBlockAndCopy_effective (s : CopyState) :
    allocBlockAndCopy stale (effective sb) s = allocBlockAndCopy stale sb s := by
  simp only [allocBlockAndCopy, effective_blockSize, blocksWrite_effective hbs]
  rfl

theorem directLoopLog_effective (rest : List (Fin 4)) (inode : Inode) (s : CopyState)
    (log : Log) :
    directLoopLog stale (effective sb) rest inode s log =
      directLoopLog stale sb rest inode s log := by
  induction rest generalizing inode s log with
  | nil => rfl
  | cons i rest ih =>
    rw [directLoopLog, directLoopLog]
    simp only [allocBlockAndCopy_effective hbs, ih]

theorem entryLoopLog_effective (i j n : ℕ) (ptrs : ℕ → BitVec 16) (s : CopyState) (log : Log) :
    entryLoopLog stale (effective sb) i j n ptrs s log =
      entryLoopLog stale sb i j n ptrs s log := by
  induction n generalizing j ptrs s log with
  | zero => rfl
  | succ n ih =>
    rw [entryLoopLog, entryLoopLog]
    simp only [allocBlockAndCopy_effective hbs, ih]

theorem indirectLoopLog_effective (rest : List (Fin 9)) (inode : Inode) (s : CopyState)
    (log : Log) :
    indirectLoopLog stale (effective sb) rest inode s log =
      indirectLoopLog stale sb rest inode s log := by
  induction rest generalizing inode s log with
  | nil => rfl
  | cons i rest ih =>
    rw [indirectLoopLog, indirectLoopLog]
    simp only [effective_blockSize, entryLoopLog_effective hbs, blocksWrite_effective hbs, ih]

theorem bitmapRead_effective (start count : ℕ) (fs : File) :
    bitmapRead (namedBlock sb.blockSize start) count sb.blockSize fs =
      bitmapRead start count sb.blockSize fs := by
  have hoffset := uint_namedBlock hbs start
  rw [Nat.mul_comm, Nat.mul_comm sb.blockSize] at hoffset
  simp only [bitmapRead, hoffset]

theorem bitmapWrite_effective (bitmap : Bitmap) (start : ℕ) (fs : File) :
    bitmapWrite bitmap (namedBlock sb.blockSize start) sb.blockSize fs =
      bitmapWrite bitmap start sb.blockSize fs := by
  simp only [bitmapWrite, blocksWrite_congr (uint_namedBlock hbs start)]

theorem inodeTableRead_effective (hstart : 0 < (effective sb).inodeStart) (fs : File) :
    inodeTableRead sb.inodeCount (effective sb).inodeStart sb.blockSize fs =
      inodeTableRead sb.inodeCount sb.inodeStart sb.blockSize fs := by
  have hoffset := uint_namedBlock hbs sb.inodeStart
  rw [Nat.mul_comm, Nat.mul_comm sb.blockSize] at hoffset
  have hpos' : 0 < namedBlock sb.blockSize sb.inodeStart := hstart
  have hpos : 0 < sb.inodeStart := by
    refine Nat.pos_of_ne_zero fun h0 => ?_
    rw [h0, namedBlock, Nat.mul_zero, uint_of_lt (by decide), Nat.zero_div] at hpos'
    exact Nat.lt_irrefl 0 hpos'
  simp only [inodeTableRead, effective, hoffset, hpos, hpos']

theorem writeMetadata_effective (ib db : Bitmap) (itab : InodeTable) (fs : File) :
    writeMetadata (effective sb) ib db itab fs = writeMetadata sb ib db itab fs := by
  have hwrite : ∀ fs, inodeTableWrite itab (namedBlock sb.blockSize sb.inodeStart) sb.blockSize fs =
      inodeTableWrite itab sb.inodeStart sb.blockSize fs := fun fs =>
    blocksWrite_congr (uint_namedBlock hbs _) _ _ fs
  simp only [writeMetadata, effective, bitmapWrite_effective hbs, hwrite]

/-- add_file does the same with the blocks that the numbers of the superblock name. -/
theorem addFileLogIn_effective (hstart : 0 < (effective sb).inodeStart) (f : File)
    (filename : Memory) (n : ℕ) (fs : File) :
    addFileLogIn stale (effective sb) f filename n fs = addFileLogIn stale sb f filename n fs := by
  have hib : ∀ fs, bitmapRead (effective sb).inodeBitmapStart sb.inodeCount sb.blockSize fs =
      bitmapRead sb.inodeBitmapStart sb.inodeCount sb.blockSize fs :=
    bitmapRead_effective hbs _ _
  have hdb : ∀ fs, bitmapRead (effective sb).datablockBitmapStart sb.datablockCount sb.blockSize
      fs = bitmapRead sb.datablockBitmapStart sb.datablockCount sb.blockSize fs :=
    bitmapRead_effective hbs _ _
  simp only [addFileLogIn, effective_blockSize, effective_inodeCount, effective_datablockCount,
    hib, hdb, inodeTableRead_effective hbs hstart, directLoopLog_effective hbs,
    indirectLoopLog_effective hbs, writeMetadata_effective hbs]

end Runs

/-- Numbers up to that of a data region below 2^32 name themselves. -/
theorem effective_of_le {sb : Superblock} (hbs : 0 < sb.blockSize)
    (hend : sb.blockSize * sb.datablocksStart < 2 ^ 32)
    (hib : sb.inodeBitmapStart + sb.inodeBitmapBlockCount ≤ sb.datablocksStart)
    (hdb : sb.datablockBitmapStart + sb.datablockBitmapBlockCount ≤ sb.datablocksStart)
    (hit : sb.inodeStart + sb.inodeBlockCount ≤ sb.datablocksStart) : effective sb = sb := by
  have hname : ∀ k ≤ sb.datablocksStart, namedBlock sb.blockSize k = k := fun k hk =>
    namedBlock_of_lt hbs (Nat.lt_of_le_of_lt (Nat.mul_le_mul_left _ hk) hend)
  rw [effective, hname _ (by omega), hname _ (by omega), hname _ (by omega), hname _ (by omega),
    hname _ (by omega), hname _ (by omega), hname _ (Nat.le_refl _)]

theorem effective_of_regions {sb : Superblock} (hr : Regions sb) : effective sb = sb := by
  have hbounds := hr.blockSize_bounds
  have hafter₁ := hr.datablockBitmap_after
  have hafter₂ := hr.inodes_after
  have hafter₃ := hr.datablocks_after
  obtain ⟨-, -, -, -, hend⟩ := hr.offsets
  exact effective_of_le (by omega) (by omega) (by omega) (by omega) (by omega)

end RathalOS.BlockAddresses
