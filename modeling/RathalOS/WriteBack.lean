import RathalOS.EmptyImages
import RathalOS.AddFile

/-!
Writing the metadata back. A write of a whole region may spill zeros into the
block after the region, but the regions are written in order and every write
fills at least its own first block, so each spill but the last is overwritten
by the next region. The last one stays inside data block 0, which no file owns.
-/
namespace RathalOS.WriteBack

open ByteMemory ByteFile Blocks Bitmaps Superblocks Inodes Images EmptyImages AddFile

/-- The metadata of an image after the tables have been written over it. -/
structure WrittenBack (sb : Superblock) (ib db : Bitmap) (itab : InodeTable) (m m' : Memory) :
    Prop where
  head : ∀ a < sb.blockSize, m' a = m a
  inodeBit : ∀ i < sb.inodeCount, inodeBit sb m' i = ib.test i
  dataBit : ∀ b < sb.datablockCount, dataBit sb m' b = db.test b
  slot : ∀ a < sb.inodeCount * inodeSize, m' (sb.blockSize * sb.inodeStart + a) = itab.inodes a
  block : ∀ b, b ≠ 0 → blockData sb m' b = blockData sb m b

theorem paddingLen_lt {bs len : ℕ} (hbs : 0 < bs) (hlen : 0 < len) : paddingLen bs len < bs := by
  unfold paddingLen
  split
  · omega
  · exact Nat.mod_lt _ hbs

/-- Data and padding fill at least one block and end before the block after the
region, even when the last byte of the data lies in that block. -/
theorem paddingLen_bounds {bs len n : ℕ} (hbs : 1 < bs) (hlen : 0 < len) (hn : 0 < n)
    (hle : len ≤ bs * n + 1) :
    bs ≤ len + paddingLen bs len ∧ len + paddingLen bs len ≤ bs * n + bs := by
  have hpad := paddingLen_lt (by omega : 0 < bs) hlen
  have hfull : bs ≤ bs * n := Nat.le_mul_of_pos_right _ hn
  by_cases hlast : len = bs * n + 1
  · have hmod : (bs * n + 1) % bs = 1 := by rw [Nat.mul_add_mod, Nat.mod_eq_of_lt hbs]
    rw [paddingLen, if_neg (by omega), hlast, hmod]
    omega
  · refine ⟨?_, by omega⟩
    unfold paddingLen
    split <;> omega

/-- Writing a table to its region of n blocks. -/
theorem blocksWrite_region (start : ℕ) {bs n len : ℕ} (data : Memory) (fs : File)
    (hbs : 1 < bs) (hlen : 0 < len) (hn : 0 < n) (hle : len ≤ bs * n + 1)
    (hoff : bs * start < 2 ^ 31) :
    ∃ fs', blocksWrite bs start data len fs = .ok fs' ∧
      (∀ a < bs * start, fs'.bytes a = fs.bytes a) ∧
      (∀ a < len, fs'.bytes (bs * start + a) = data a) ∧
      (∀ a < bs, len ≤ a → fs'.bytes (bs * start + a) = 0) ∧
      (∀ a, bs * start + bs * n + bs ≤ a → fs'.bytes a = fs.bytes a) ∧
      fs.size ≤ fs'.size ∧ fs'.size ≤ max fs.size (bs * start + bs * n + bs) := by
  obtain ⟨fs', hok, hbytes, hsize⟩ := blocksWrite_spec data fs (by omega) hlen hoff
  obtain ⟨hfill, hend⟩ := paddingLen_bounds hbs hlen hn hle
  refine ⟨fs', hok, ?_, ?_, ?_, ?_, by omega, by omega⟩
  · intro a ha
    rw [hbytes, if_neg (by omega), if_neg (by omega)]
  · intro a ha
    rw [hbytes, if_pos (by omega), Nat.add_sub_cancel_left]
  · intro a ha hla
    rw [hbytes, if_neg (by omega), if_pos (by omega)]
  · intro a ha
    rw [hbytes, if_neg (by omega), if_neg (by omega)]

/-- A view of bits that starts at an offset shows the bits written there. -/
theorem bitAt_eq_test {m : Memory} {offset i : ℕ} {bitmap : Bitmap}
    (h : m (offset + i / 8) = bitmap.bits (i / 8)) : bitAt m offset i = bitmap.test i := by
  rw [Bitmap.test, bitAt, bitAt, h, Nat.zero_add]

/-- A data block other than block 0 lies a whole block after the inode table. -/
theorem block_after (sb : Superblock) {b : ℕ} (hb : b ≠ 0) (t : ℕ) :
    sb.blockSize * sb.datablocksStart + sb.blockSize ≤
      sb.blockSize * (sb.datablocksStart + b) + t := by
  calc
    sb.blockSize * sb.datablocksStart + sb.blockSize =
        sb.blockSize * (sb.datablocksStart + 1) := by ring
    _ ≤ sb.blockSize * (sb.datablocksStart + b) := Nat.mul_le_mul_left _ (by omega)
    _ ≤ sb.blockSize * (sb.datablocksStart + b) + t := Nat.le_add_right _ _

/-- The bytes of an image after the three writes. A bitmap that fits in its region
is stored whole; the inode table always is, and no file loses a byte. -/
structure TablesWritten (sb : Superblock) (ib db : Bitmap) (itab : InodeTable) (m m' : Memory) :
    Prop where
  head : ∀ a < sb.blockSize * sb.inodeBitmapStart, m' a = m a
  inodeBits : (sb.inodeCount + 7) / 8 ≤ sb.inodeBitmapBlockCount * sb.blockSize →
    ∀ k < (sb.inodeCount + 7) / 8, m' (sb.blockSize * sb.inodeBitmapStart + k) = ib.bits k
  dataBits : (sb.datablockCount + 7) / 8 ≤ sb.datablockBitmapBlockCount * sb.blockSize →
    ∀ k < (sb.datablockCount + 7) / 8, m' (sb.blockSize * sb.datablockBitmapStart + k) = db.bits k
  slot : ∀ a < sb.inodeCount * inodeSize, m' (sb.blockSize * sb.inodeStart + a) = itab.inodes a
  tail : ∀ a, sb.blockSize * sb.datablocksStart + sb.blockSize ≤ a → m' a = m a

theorem writeMetadata_bytes {sb : Superblock} (ib db : Bitmap) (itab : InodeTable) (fs : File)
    (hr : Regions sb) (hib : ib.size = (sb.inodeCount + 7) / 8)
    (hdb : db.size = (sb.datablockCount + 7) / 8) (hit : itab.size = sb.inodeCount * inodeSize) :
    ∃ fs', writeMetadata sb ib db itab fs = .ok fs' ∧
      TablesWritten sb ib db itab fs.bytes fs'.bytes ∧ fs.size ≤ fs'.size ∧
      fs'.size ≤ max fs.size (sb.blockSize * sb.datablocksStart + sb.blockSize) := by
  have hbounds := hr.blockSize_bounds
  have hic := hr.inodeCount_pos
  have hdc := hr.datablockCount_pos
  have hfull := Nat.mul_le_mul hbounds.1 hr.datablockCount_pos
  obtain ⟨h1, h2, h3, h4, h5⟩ := hr.offsets
  have hibnear := hr.inodeBitmap_near
  have hdbnear := hr.datablockBitmap_near
  have hitfit := hr.inodes_fit
  rw [Nat.mul_comm sb.inodeBitmapBlockCount] at hibnear
  rw [Nat.mul_comm sb.datablockBitmapBlockCount] at hdbnear
  rw [Nat.mul_comm sb.inodeBlockCount] at hitfit
  have hit' : itab.size = 64 * sb.inodeCount := by rw [hit, Nat.mul_comm]; rfl
  have hitpos : 0 < sb.inodeBlockCount :=
    Nat.pos_of_ne_zero fun h => by rw [h] at hitfit; omega
  have hafter₁ := hr.datablockBitmap_after
  have hafter₂ := hr.inodes_after
  have hafter₃ := hr.datablocks_after
  have hspan : ∀ start ≤ sb.datablocksStart, sb.blockSize * start +
      sb.blockSize * (sb.datablocksStart - start) = sb.blockSize * sb.datablocksStart := by
    intro start hle
    rw [← Nat.mul_add, Nat.add_sub_cancel' hle]
  have hibspan := hspan sb.inodeBitmapStart (by omega)
  have hdbspan := hspan sb.datablockBitmapStart (by omega)
  have hitspan := hspan sb.inodeStart (by omega)
  -- each table ends before the data blocks, so that it spills at most into block 0
  have hibroom : ib.size ≤ sb.blockSize * (sb.datablocksStart - sb.inodeBitmapStart) + 1 := by
    omega
  have hdbroom : db.size ≤ sb.blockSize * (sb.datablocksStart - sb.datablockBitmapStart) + 1 := by
    omega
  have hitroom : itab.size ≤ sb.blockSize * (sb.datablocksStart - sb.inodeStart) + 1 := by omega
  obtain ⟨fs₁, hok₁, hlow₁, hdata₁, -, hhigh₁, hsize₁⟩ :=
    blocksWrite_region sb.inodeBitmapStart ib.bits fs (by omega) (by omega) (by omega) hibroom
      (by omega)
  obtain ⟨fs₂, hok₂, hlow₂, hdata₂, -, hhigh₂, hsize₂⟩ :=
    blocksWrite_region sb.datablockBitmapStart db.bits fs₁ (by omega) (by omega) (by omega) hdbroom
      (by omega)
  obtain ⟨fs₃, hok₃, hlow₃, hdata₃, -, hhigh₃, hsize₃⟩ :=
    blocksWrite_region sb.inodeStart itab.inodes fs₂ (by omega) (by omega) (by omega) hitroom
      (by omega)
  refine ⟨fs₃, ?_, ?_, by omega, by omega⟩
  · simp only [writeMetadata, bitmapWrite, if_pos hr.blockSize_mem, hok₁, hok₂, inodeTableWrite,
      ok_bind, hok₃]
  · constructor
    case head =>
      intro a ha
      rw [hlow₃ a (by omega), hlow₂ a (by omega), hlow₁ a (by omega)]
    case inodeBits =>
      intro hfit k hk
      rw [Nat.mul_comm sb.inodeBitmapBlockCount] at hfit
      rw [hlow₃ _ (by omega), hlow₂ _ (by omega), hdata₁ _ (by omega)]
    case dataBits =>
      intro hfit k hk
      rw [Nat.mul_comm sb.datablockBitmapBlockCount] at hfit
      rw [hlow₃ _ (by omega), hdata₂ _ (by omega)]
    case slot =>
      intro a ha
      exact hdata₃ a (by omega)
    case tail =>
      intro a ha
      rw [hhigh₃ _ (by omega), hhigh₂ _ (by omega), hhigh₁ _ (by omega)]

section Tables

variable {sb : Superblock} {ib db : Bitmap} {itab : InodeTable} {m m' : Memory}

theorem TablesWritten.block (h : TablesWritten sb ib db itab m m') {b : ℕ} (hb : b ≠ 0) :
    blockData sb m' b = blockData sb m b := by
  funext t
  exact h.tail _ (block_after sb hb t)

/-- Inodes are read from the table that was stored. -/
theorem inodeAt_of_slots (h : ∀ a < sb.inodeCount * inodeSize,
    m' (sb.blockSize * sb.inodeStart + a) = itab.inodes a) {i : ℕ} (hi : i < sb.inodeCount) :
    inodeAt sb m' i = itab.inode i := by
  apply Inode.ofMemory_congr
  intro k hk
  have hin : inodeSize * i + k < sb.inodeCount * inodeSize := by
    simp only [inodeSize] at hk ⊢
    omega
  have hslot := h _ hin
  rw [← Nat.add_assoc] at hslot
  exact hslot

end Tables

/-- With room for both bitmaps all three tables reach their places. -/
theorem TablesWritten.writtenBack {sb : Superblock} {ib db : Bitmap} {itab : InodeTable}
    {m m' : Memory} (h : TablesWritten sb ib db itab m m') (hl : Layout sb) :
    WrittenBack sb ib db itab m m' := by
  obtain ⟨h1, -⟩ := hl.regions.offsets
  constructor
  case head =>
    intro a ha
    exact h.head a (by omega)
  case inodeBit =>
    intro i hi
    apply bitAt_eq_test
    exact h.inodeBits hl.inodeBitmap_fits _ (by omega)
  case dataBit =>
    intro b hb
    apply bitAt_eq_test
    exact h.dataBits hl.datablockBitmap_fits _ (by omega)
  case slot => exact h.slot
  case block =>
    intro b hb
    exact h.block hb

theorem writeMetadata_spec {sb : Superblock} (ib db : Bitmap) (itab : InodeTable) (fs : File)
    (hl : Layout sb) (hib : ib.size = (sb.inodeCount + 7) / 8)
    (hdb : db.size = (sb.datablockCount + 7) / 8) (hit : itab.size = sb.inodeCount * inodeSize) :
    ∃ fs', writeMetadata sb ib db itab fs = .ok fs' ∧
      WrittenBack sb ib db itab fs.bytes fs'.bytes ∧ fs.size ≤ fs'.size := by
  obtain ⟨fs', hok, hwritten, hsize, -⟩ := writeMetadata_bytes ib db itab fs hl.regions hib hdb hit
  exact ⟨fs', hok, hwritten.writtenBack hl, hsize⟩

section Views

variable {sb : Superblock} {ib db : Bitmap} {itab : InodeTable} {m m' : Memory}

theorem WrittenBack.inode (h : WrittenBack sb ib db itab m m') {i : ℕ} (hi : i < sb.inodeCount) :
    inodeAt sb m' i = itab.inode i := inodeAt_of_slots h.slot hi

end Views

section Reload

/-- Two bitmaps of the same length with the same bits. -/
structure SameBitmap (b b' : Bitmap) : Prop where
  count : b'.count = b.count
  size : b'.size = b.size
  bits : ∀ k < b.size, b'.bits k = b.bits k

/-- Two inode tables of the same length with the same inodes. -/
structure SameTable (t t' : InodeTable) : Prop where
  inodeCount : t'.inodeCount = t.inodeCount
  size : t'.size = t.size
  inodes : ∀ a < t.size, t'.inodes a = t.inodes a

/-- The tables are written back, reading them again returns what was written,
and neither the superblock nor a data block other than block 0 has changed. -/
def Reloads (sb : Superblock) (ib db : Bitmap) (itab : InodeTable) (fs : File) : Prop :=
  ∃ fs' ib' db' itab' fs₁ fs₂ fs₃,
    writeMetadata sb ib db itab fs = .ok fs' ∧
    bitmapRead sb.inodeBitmapStart sb.inodeCount sb.blockSize fs' = .ok (ib', fs₁) ∧
    bitmapRead sb.datablockBitmapStart sb.datablockCount sb.blockSize fs₁ = .ok (db', fs₂) ∧
    inodeTableRead sb.inodeCount sb.inodeStart sb.blockSize fs₂ = .ok (itab', fs₃) ∧
    SameBitmap ib ib' ∧ SameBitmap db db' ∧ SameTable itab itab' ∧
    (∀ a < sb.blockSize, fs'.bytes a = fs.bytes a) ∧
    ∀ b, 1 ≤ b → ∀ t < sb.blockSize, blockData sb fs'.bytes b t = blockData sb fs.bytes b t

variable {sb : Superblock} {ib db : Bitmap} {itab : InodeTable}

theorem sameBitmap_bitmapOf {m : Memory} {offset count : ℕ} {b : Bitmap} (hcount : b.count = count)
    (hsize : b.size = (count + 7) / 8) (hbits : ∀ k < (count + 7) / 8, m (offset + k) = b.bits k) :
    SameBitmap b (bitmapOf m offset count) where
  count := hcount.symm
  size := hsize.symm
  bits k hk := by
    rw [hsize] at hk
    change (if k < (count + 7) / 8 then m (offset + k) else 0) = _
    rw [if_pos hk, hbits k hk]

theorem sameTable_tableOf {m : Memory} {offset count : ℕ} {t : InodeTable}
    (hcount : t.inodeCount = count) (hsize : t.size = count * inodeSize)
    (hinodes : ∀ a < count * inodeSize, m (offset + a) = t.inodes a) :
    SameTable t (tableOf m offset count) where
  inodeCount := hcount.symm
  size := hsize.symm
  inodes a ha := by
    rw [hsize] at ha
    change (if a < count * inodeSize then m (offset + a) else 0) = _
    rw [if_pos ha, hinodes a ha]

/-- Every bit and every inode survives the write-back, for all sizes a bitmap or an
inode table can be created with. -/
theorem writeMetadata_reloads (hl : Layout sb) (fs : File) (hib : ib.count = sb.inodeCount)
    (hibsize : ib.size = (sb.inodeCount + 7) / 8) (hdb : db.count = sb.datablockCount)
    (hdbsize : db.size = (sb.datablockCount + 7) / 8) (hit : itab.inodeCount = sb.inodeCount)
    (hitsize : itab.size = sb.inodeCount * inodeSize) : Reloads sb ib db itab fs := by
  have hr := hl.regions
  have hbounds := hl.blockSize_bounds
  have hafter₁ := hl.inodeBitmap_after
  have hafter₂ := hl.datablockBitmap_after
  have hafter₃ := hl.inodes_after
  have hblocks := Nat.mul_le_mul hbounds.1 hl.datablockCount_pos
  obtain ⟨hslots, hdata⟩ := hr.counts
  obtain ⟨h1, h2, h3, h4, h5⟩ := hl.regions.offsets
  have hcount : sb.inodeCount < 2 ^ 31 := by
    simp only [inodeSize] at hslots
    omega
  obtain ⟨fs', hok, hwritten, -⟩ := writeMetadata_bytes ib db itab fs hr hibsize hdbsize hitsize
  obtain ⟨p₁, hread₁⟩ := bitmapRead_spec sb.inodeBitmapStart sb.inodeCount fs' hl.blockSize_mem
    hl.inodeCount_pos (by omega) (by omega)
  obtain ⟨p₂, hread₂⟩ := bitmapRead_spec sb.datablockBitmapStart sb.datablockCount
    (fs'.movedTo p₁) hl.blockSize_mem hl.datablockCount_pos hdata (by omega)
  obtain ⟨p₃, hread₃⟩ := inodeTableRead_spec sb.inodeCount sb.inodeStart (fs'.movedTo p₂)
    hl.inodeCount_pos (by omega) (by omega : 0 < sb.blockSize) (by omega) (by omega)
  refine ⟨fs', _, _, _, _, _, _, hok, hread₁, hread₂, hread₃, ?_, ?_, ?_, ?_, ?_⟩
  · exact sameBitmap_bitmapOf hib hibsize (hwritten.inodeBits hl.inodeBitmap_fits)
  · exact sameBitmap_bitmapOf hdb hdbsize (hwritten.dataBits hl.datablockBitmap_fits)
  · exact sameTable_tableOf hit hitsize hwritten.slot
  · intro a ha
    exact hwritten.head a (by omega)
  · intro b hb t _
    rw [hwritten.block (by omega)]

/-- Tables of eight inodes and eight data blocks, written over an empty image. -/
theorem writeMetadata_reloads_small : Reloads smallSuperblock (bitmapOf (fun _ => 5) 0 8)
    (bitmapOf (fun _ => 7) 0 8) (tableOf (fun k => byteAt k 0) 0 8) (emptyImage smallSuperblock) :=
  writeMetadata_reloads smallSuperblock_layout _ rfl rfl rfl rfl rfl rfl

end Reload

end RathalOS.WriteBack
