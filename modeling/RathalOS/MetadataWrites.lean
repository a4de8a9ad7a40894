import RathalOS.WriteBack
import RathalOS.WrittenImages
import RathalOS.GuardedImages

/-!
The three writes that end add_file and delete_file, one after another. Each table
goes to its region, and blocks_write may pad it into the block after the region:
the padding of the inode bitmap then covers bits of the data bitmap, and that of
the data bitmap inodes, until the next write puts them back.
-/
namespace RathalOS.MetadataWrites

open ByteMemory ByteFile Blocks Bitmaps Superblocks Inodes TornWrites Images AddFile WriteBack
open Histories WrittenImages ImageRuns GuardedImages

/-- A memory after some data has been written to blocks of it, with its padding. -/
def written (bs start len : ℕ) (data m : Memory) : Memory := fun a =>
  if bs * start ≤ a ∧ a < bs * start + len then data (a - bs * start)
  else if bs * start + len ≤ a ∧ a < bs * start + len + paddingLen bs len then 0
  else m a

/-- Where the padding that follows a bitmap of some number of bits ends. -/
def bitmapEnd (sb : Superblock) (start bits : ℕ) : ℕ :=
  sb.blockSize * start + (bits + 7) / 8 + paddingLen sb.blockSize ((bits + 7) / 8)

/-- Where the inode table and its padding end. -/
def tableEnd (sb : Superblock) : ℕ :=
  sb.blockSize * sb.inodeStart + sb.inodeCount * inodeSize +
    paddingLen sb.blockSize (sb.inodeCount * inodeSize)

/-- The padding of either bitmap ends before the next region. -/
structure Snug (sb : Superblock) : Prop where
  inodes : bitmapEnd sb sb.inodeBitmapStart sb.inodeCount ≤ sb.blockSize * sb.datablockBitmapStart
  blocks : bitmapEnd sb sb.datablockBitmapStart sb.datablockCount ≤ sb.blockSize * sb.inodeStart

/-- A memory before the three writes and after each of them. -/
structure Stages (sb : Superblock) (ib db : Bitmap) (itab : InodeTable)
    (m₀ m₁ m₂ m₃ : Memory) : Prop where
  inodeBits : ib.size = (sb.inodeCount + 7) / 8
  blockBits : db.size = (sb.datablockCount + 7) / 8
  table : itab.size = sb.inodeCount * inodeSize
  first : m₁ = written sb.blockSize sb.inodeBitmapStart ib.size ib.bits m₀
  second : m₂ = written sb.blockSize sb.datablockBitmapStart db.size db.bits m₁
  third : m₃ = written sb.blockSize sb.inodeStart itab.size itab.inodes m₂

section Written

variable {bs start len a : ℕ} {data m : Memory}

theorem written_inside (hstart : bs * start ≤ a) (hend : a < bs * start + len) :
    written bs start len data m a = data (a - bs * start) := if_pos ⟨hstart, hend⟩

theorem written_padding (hstart : bs * start + len ≤ a)
    (hend : a < bs * start + len + paddingLen bs len) : written bs start len data m a = 0 := by
  rw [written, if_neg (by omega), if_pos ⟨hstart, hend⟩]

theorem written_outside (h : a < bs * start ∨ bs * start + len + paddingLen bs len ≤ a) :
    written bs start len data m a = m a := by
  rw [written, if_neg (by omega), if_neg (by omega)]

theorem blocksWrite_written {fs fs' : File} (hbs : 0 < bs) (hoff : bs * start < 2 ^ 31)
    (h : blocksWrite bs start data len fs = .ok fs') :
    fs'.bytes = written bs start len data fs.bytes := by
  by_cases hlen : 0 < len
  · obtain ⟨fs'', hok, hbytes, -⟩ := blocksWrite_spec data fs hbs hlen hoff
    rw [h] at hok
    obtain rfl := Except.ok.inj hok
    exact funext hbytes
  · rw [blocksWrite, if_neg fun hand => hlen hand.2] at h
    cases h

end Written

section Geometry

variable {sb : Superblock}

theorem inodeBlockCount_pos (hl : Layout sb) : 0 < sb.inodeBlockCount := by
  have hit := hl.tables_fit.2.2
  have hpos : 0 < sb.inodeCount * inodeSize := Nat.mul_pos hl.inodeCount_pos (by decide)
  refine Nat.pos_of_ne_zero fun h0 => ?_
  rw [h0] at hit
  omega

/-- Every write ends at most one block after its region. -/
theorem ends_of_layout (hl : Layout sb) :
    bitmapEnd sb sb.inodeBitmapStart sb.inodeCount ≤
      sb.blockSize * sb.inodeBitmapStart + sb.blockSize * sb.inodeBitmapBlockCount + sb.blockSize ∧
    bitmapEnd sb sb.datablockBitmapStart sb.datablockCount ≤
      sb.blockSize * sb.datablockBitmapStart + sb.blockSize * sb.datablockBitmapBlockCount +
        sb.blockSize ∧
    tableEnd sb ≤ sb.blockSize * sb.datablocksStart + sb.blockSize := by
  have hbounds := hl.blockSize_bounds
  have hic := hl.inodeCount_pos
  have hdc := hl.datablockCount_pos
  obtain ⟨hib, hdb, hit⟩ := hl.tables_fit
  obtain ⟨-, -, -, h4, -⟩ := hl.regions.offsets
  have hpos : 0 < sb.inodeCount * inodeSize := Nat.mul_pos hic (by decide)
  have h₁ := (paddingLen_bounds (by omega : 1 < sb.blockSize) (by omega)
    hl.inodeBitmap_pos (by omega : (sb.inodeCount + 7) / 8 ≤ _)).2
  have h₂ := (paddingLen_bounds (by omega : 1 < sb.blockSize) (by omega)
    hl.datablockBitmap_pos (by omega : (sb.datablockCount + 7) / 8 ≤ _)).2
  have h₃ := (paddingLen_bounds (by omega : 1 < sb.blockSize) hpos
    (inodeBlockCount_pos hl) (by omega)).2
  unfold bitmapEnd tableEnd
  exact ⟨by omega, by omega, by omega⟩

/-- A bitmap of at most one block is padded up to the end of this block. -/
theorem snug_of_one_block (hl : Layout sb) (hi : (sb.inodeCount + 7) / 8 ≤ sb.blockSize)
    (hb : (sb.datablockCount + 7) / 8 ≤ sb.blockSize) : Snug sb := by
  have hend : ∀ start bits, (bits + 7) / 8 ≤ sb.blockSize →
      bitmapEnd sb start bits = sb.blockSize * start + sb.blockSize := by
    intro start bits hle
    unfold bitmapEnd paddingLen
    split
    · omega
    · rw [show (bits + 7) / 8 = sb.blockSize by omega, Nat.mod_self]
      omega
  obtain ⟨h1, h2, h3, -⟩ := hl.regions.offsets
  have hiblock := Nat.le_mul_of_pos_right sb.blockSize hl.inodeBitmap_pos
  have hdblock := Nat.le_mul_of_pos_right sb.blockSize hl.datablockBitmap_pos
  constructor
  · rw [hend _ _ hi]
    omega
  · rw [hend _ _ hb]
    omega

/-- The bytes of one inode. -/
def slotBytes (sb : Superblock) (j : ℕ) : Set ℕ :=
  {a | ∃ k < inodeSize, a = sb.blockSize * sb.inodeStart + inodeSize * j + k}

/-- They lie in one sector, so they are written together. -/
theorem torn_slot (hl : Layout sb) (j : ℕ) (reached : ℕ → Bool) (old new : Memory) :
    Set.EqOn (torn 512 reached old new) old (slotBytes sb j) ∨
      Set.EqOn (torn 512 reached old new) new (slotBytes sb j) := by
  have hbs : sb.blockSize % 512 = 0 := by
    have hmem := hl.blockSize_mem
    simp only [blockSizes, List.mem_cons, List.not_mem_nil, or_false] at hmem
    omega
  have hstart : sb.blockSize * sb.inodeStart % 512 = 0 := by
    rw [Nat.mul_mod, hbs, Nat.zero_mul, Nat.zero_mod]
  have hsector : ∀ a ∈ slotBytes sb j, a / 512 = sb.blockSize * sb.inodeStart / 512 + j / 8 := by
    intro a ha
    obtain ⟨k, hk, rfl⟩ := ha
    simp only [inodeSize] at hk ⊢
    omega
  exact torn_sector reached old new hsector

/-- Block sizes, offsets and inodes are even, so padding that reaches into an inode
covers its number. -/
theorem bitmapEnd_even (hl : Layout sb) (start bits : ℕ) : bitmapEnd sb start bits % 2 = 0 := by
  have hbounds := hl.blockSize_bounds
  have hbs : sb.blockSize % 2 = 0 := by omega
  have hstart : sb.blockSize * start % 2 = 0 := by
    rw [Nat.mul_mod, hbs, Nat.zero_mul, Nat.zero_mod]
  have hpad : ((bits + 7) / 8 + paddingLen sb.blockSize ((bits + 7) / 8)) % 2 = 0 := by
    unfold paddingLen
    split
    · omega
    · have hmod := Nat.mod_mod_of_dvd ((bits + 7) / 8) (Nat.dvd_of_mod_eq_zero hbs)
      omega
  unfold bitmapEnd
  omega

theorem smallSuperblock_snug : Snug EmptyImages.smallSuperblock :=
  snug_of_one_block EmptyImages.smallSuperblock_layout (by decide) (by decide)

end Geometry

/-- The images that a write of the metadata leaves one after another. -/
theorem writeMetadataImages_ok {sb : Superblock} {ib db : Bitmap} {itab : InodeTable}
    {fs fs' : File} {images images' : List File} (hr : Regions sb)
    (hib : ib.size = (sb.inodeCount + 7) / 8) (hdb : db.size = (sb.datablockCount + 7) / 8)
    (hit : itab.size = sb.inodeCount * inodeSize)
    (h : writeMetadataImages sb ib db itab fs images = .ok (fs', images')) :
    ∃ fs₁ fs₂, images' = images ++ [fs₁, fs₂, fs'] ∧
      Stages sb ib db itab fs.bytes fs₁.bytes fs₂.bytes fs'.bytes := by
  have hbounds := hr.blockSize_bounds
  have hfull := Nat.mul_le_mul hbounds.1 hr.datablockCount_pos
  obtain ⟨h1, h2, h3, h4, h5⟩ := hr.offsets
  obtain ⟨fs₁, hok₁, h⟩ := bind_eq_ok h
  obtain ⟨fs₂, hok₂, h⟩ := bind_eq_ok h
  obtain ⟨fs₃, hok₃, h⟩ := bind_eq_ok h
  obtain ⟨rfl, rfl⟩ := Prod.mk.inj (Except.ok.inj h)
  rw [bitmapWrite, if_pos hr.blockSize_mem] at hok₁ hok₂
  exact ⟨fs₁, fs₂, rfl, hib, hdb, hit, blocksWrite_written (by omega) (by omega) hok₁,
    blocksWrite_written (by omega) (by omega) hok₂, blocksWrite_written (by omega) (by omega) hok₃⟩

section Views

variable {sb : Superblock} {ib db : Bitmap} {itab : InodeTable} {m₀ m₁ m₂ m₃ : Memory} {a : ℕ}

/-- The superblock is not written. -/
theorem Stages.head (hl : Layout sb) (h : Stages sb ib db itab m₀ m₁ m₂ m₃)
    (ha : a < sb.blockSize) : m₁ a = m₀ a ∧ m₂ a = m₀ a ∧ m₃ a = m₀ a := by
  obtain ⟨h1, h2, h3, h4, -⟩ := hl.regions.offsets
  rw [h.third, written_outside (Or.inl (by omega)), h.second, written_outside (Or.inl (by omega)),
    h.first, written_outside (Or.inl (by omega))]
  simp only [and_self]

/-- Neither are the data blocks that files can own. -/
theorem Stages.after (hl : Layout sb) (h : Stages sb ib db itab m₀ m₁ m₂ m₃)
    (ha : sb.blockSize * sb.datablocksStart + sb.blockSize ≤ a) :
    m₁ a = m₀ a ∧ m₂ a = m₀ a ∧ m₃ a = m₀ a := by
  obtain ⟨h1, h2, h3, h4, -⟩ := hl.regions.offsets
  obtain ⟨hib, hdb, hit⟩ := ends_of_layout hl
  unfold bitmapEnd at hib hdb
  unfold tableEnd at hit
  rw [h.third, h.table, written_outside (Or.inr (by omega)), h.second, h.blockBits,
    written_outside (Or.inr (by omega)), h.first, h.inodeBits,
    written_outside (Or.inr (by omega))]
  simp only [and_self]

/-- The first write ends before the inode table. -/
theorem Stages.first_table (hl : Layout sb) (h : Stages sb ib db itab m₀ m₁ m₂ m₃)
    (ha : sb.blockSize * sb.inodeStart ≤ a) : m₁ a = m₀ a := by
  obtain ⟨h1, h2, h3, h4, -⟩ := hl.regions.offsets
  obtain ⟨hib, -, -⟩ := ends_of_layout hl
  have hblock := Nat.le_mul_of_pos_right sb.blockSize hl.datablockBitmap_pos
  unfold bitmapEnd at hib
  rw [h.first, h.inodeBits, written_outside (Or.inr (by omega))]

/-- The third write starts with the inode table. -/
theorem Stages.third_below (h : Stages sb ib db itab m₀ m₁ m₂ m₃)
    (ha : a < sb.blockSize * sb.inodeStart) : m₃ a = m₂ a := by
  rw [h.third, written_outside (Or.inl ha)]

theorem Stages.torn_below (h : Stages sb ib db itab m₀ m₁ m₂ m₃) (reached : ℕ → Bool)
    (ha : a < sb.blockSize * sb.inodeStart) : torn 512 reached m₂ m₃ a = m₂ a := by
  rcases torn_cases 512 reached m₂ m₃ a with hcase | hcase
  · rw [hcase, h.third_below ha]
  · exact hcase

theorem Stages.inodeBit (hl : Layout sb) (h : Stages sb ib db itab m₀ m₁ m₂ m₃) {i : ℕ}
    (hi : i < sb.inodeCount) : inodeBit sb m₁ i = ib.test i ∧ inodeBit sb m₂ i = ib.test i := by
  obtain ⟨h1, h2, h3, h4, -⟩ := hl.regions.offsets
  obtain ⟨hib, -, -⟩ := hl.tables_fit
  have hfirst : m₁ (sb.blockSize * sb.inodeBitmapStart + i / 8) = ib.bits (i / 8) := by
    rw [h.first, h.inodeBits, written_inside (by omega) (by omega), Nat.add_sub_cancel_left]
  refine ⟨bitAt_eq_test hfirst, bitAt_eq_test ?_⟩
  rw [h.second, written_outside (Or.inl (by omega)), hfirst]

theorem Stages.dataBit (hl : Layout sb) (h : Stages sb ib db itab m₀ m₁ m₂ m₃) {b : ℕ}
    (hb : b < sb.datablockCount) : dataBit sb m₂ b = db.test b := by
  obtain ⟨-, hdb, -⟩ := hl.tables_fit
  apply bitAt_eq_test
  rw [h.second, h.blockBits, written_inside (by omega) (by omega), Nat.add_sub_cancel_left]

/-- With the padding of the inode bitmap in its region the first write leaves the other
bitmap alone. -/
theorem Stages.dataBit_first (hs : Snug sb) (h : Stages sb ib db itab m₀ m₁ m₂ m₃) (b : ℕ) :
    Images.dataBit sb m₁ b = Images.dataBit sb m₀ b := by
  have hend := hs.inodes
  unfold bitmapEnd at hend
  unfold Images.dataBit bitAt
  rw [h.first, h.inodeBits, written_outside (Or.inr (by omega))]

/-- With the padding of the data bitmap in its region the second write leaves the
inodes alone. -/
theorem Stages.second_table (hl : Layout sb) (hs : Snug sb)
    (h : Stages sb ib db itab m₀ m₁ m₂ m₃) (ha : sb.blockSize * sb.inodeStart ≤ a) :
    m₂ a = m₀ a := by
  have hend := hs.blocks
  unfold bitmapEnd at hend
  rw [h.second, h.blockBits, written_outside (Or.inr (by omega)), h.first_table hl ha]

/-- An inode that the padding of the data bitmap reaches is not in use after the second
write. -/
theorem Stages.cleared_number (hl : Layout sb) (h : Stages sb ib db itab m₀ m₁ m₂ m₃) {j : ℕ}
    (hreach : sb.blockSize * sb.inodeStart + inodeSize * j <
      bitmapEnd sb sb.datablockBitmapStart sb.datablockCount) :
    (inodeAt sb m₂ j).number = 0 := by
  have hbounds := hl.blockSize_bounds
  obtain ⟨h1, h2, h3, h4, -⟩ := hl.regions.offsets
  obtain ⟨-, hdb, -⟩ := hl.tables_fit
  have heven := bitmapEnd_even hl sb.datablockBitmapStart sb.datablockCount
  have hstart : sb.blockSize * sb.inodeStart % 2 = 0 := by
    rw [Nat.mul_mod, show sb.blockSize % 2 = 0 by omega, Nat.zero_mul, Nat.zero_mod]
  have hzero : ∀ d < 2, m₂ (sb.blockSize * sb.inodeStart + inodeSize * j + d) = 0 := by
    intro d hd
    unfold bitmapEnd at hreach heven
    simp only [inodeSize] at hreach ⊢
    rw [h.second, h.blockBits, written_padding (by omega) (by omega)]
  change read16 (advance m₂ _) 0 = 0
  rw [read16, advance_apply, advance_apply, hzero 0 (by decide), Nat.zero_add, hzero 1 (by decide)]
  rfl

end Views

section Files

variable {sb : Superblock} {ib db : Bitmap} {itab : InodeTable} {m m₀ m₁ m₂ m₃ : Memory} {j : ℕ}

/-- The second write leaves an inode alone unless it is in use and the padding of the data
bitmap reaches it. -/
theorem Stages.second_slot (hg : Guarded sb m) (h : Stages sb ib db itab m₀ m₁ m₂ m₃)
    (hkept : Keeps sb m m₁) (hj : j < sb.inodeCount)
    (hclear : Live sb m j → bitmapEnd sb sb.datablockBitmapStart sb.datablockCount ≤
      sb.blockSize * sb.inodeStart + inodeSize * j) {k : ℕ} (hk : k < inodeSize) :
    m₂ (sb.blockSize * sb.inodeStart + inodeSize * j + k) =
      m (sb.blockSize * sb.inodeStart + inodeSize * j + k) := by
  have hbounds := hg.layout.blockSize_bounds
  obtain ⟨h1, h2, h3, h4, -⟩ := hg.layout.regions.offsets
  obtain ⟨-, hdb, -⟩ := hg.layout.tables_fit
  by_cases hin : sb.blockSize * sb.inodeStart + inodeSize * j + k <
      bitmapEnd sb sb.datablockBitmapStart sb.datablockCount
  · -- the bytes of an inode that is not in use are zero already
    have hfree : (inodeAt sb m j).number = 0 := by
      by_contra hlive
      have hafter := hclear ⟨hj, hlive⟩
      omega
    have hzero := bytes_of_inode_zero (hg.free_zero j hj hfree) hk
    rw [advance_apply] at hzero
    unfold bitmapEnd at hin
    rw [h.second, h.blockBits, written_padding (by omega) hin, hzero]
  · unfold bitmapEnd at hin
    rw [h.second, h.blockBits, written_outside (Or.inr (by omega))]
    exact hkept (Or.inl (slot_mem_tableBytes hj hk))

/-- A file whose inode the padding of the data bitmap reaches is not found between the
second write and the third. -/
theorem Stages.lost (hg : Guarded sb m) (h : Stages sb ib db itab m₀ m₁ m₂ m₃)
    (hkept : Keeps sb m m₁) (hj : Live sb m j)
    (hreach : sb.blockSize * sb.inodeStart + inodeSize * j <
      bitmapEnd sb sb.datablockBitmapStart sb.datablockCount) :
    storeOf sb m₂ (inodeAt sb m j).shownName = none := by
  apply storeOf_eq_none
  intro k hk hname
  rcases hk with ⟨hk, hlive⟩
  by_cases hin : sb.blockSize * sb.inodeStart + inodeSize * k <
      bitmapEnd sb sb.datablockBitmapStart sb.datablockCount
  · exact hlive (h.cleared_number hg.layout hin)
  · have hslot : inodeAt sb m₂ k = inodeAt sb m k :=
      inodeAt_congr fun d hd => h.second_slot hg hkept hk (fun _ => Nat.not_lt.mp hin) hd
    rw [hslot] at hlive hname
    have hkj := hg.names k j ⟨hk, hlive⟩ hj hname
    rw [hkj] at hin
    exact hin hreach

/-- With an inode cleared, the third write clears this inode and nothing else in the table. -/
theorem Stages.erased_table {i : ℕ}
    (h : Stages sb ib db (inodePut (inodeTableOf sb m₀) i Inode.zero) m₀ m₁ m₂ m₃)
    (hj : j < sb.inodeCount) {k : ℕ} (hk : k < inodeSize) :
    m₃ (sb.blockSize * sb.inodeStart + inodeSize * j + k) =
      if j = i then 0 else m₀ (sb.blockSize * sb.inodeStart + inodeSize * j + k) := by
  have hin : inodeSize * j + k < sb.inodeCount * inodeSize := by
    simp only [inodeSize] at hk ⊢
    omega
  have hwritten : m₃ (sb.blockSize * sb.inodeStart + inodeSize * j + k) =
      (inodePut (inodeTableOf sb m₀) i Inode.zero).inodes (inodeSize * j + k) := by
    rw [h.third, h.table, written_inside (by omega) (by omega), Nat.add_assoc,
      Nat.add_sub_cancel_left]
  rw [hwritten]
  by_cases hji : j = i
  · rw [if_pos hji, hji]
    simp only [inodePut]
    rw [store_inside _ _ (by omega) (by omega), Nat.add_sub_cancel_left]
    simp [Inode.toMemory, Inode.zero, byteAt]
  · rw [if_neg hji, inodePut_outside _ _ (by rwa [slot_div j hk]), Nat.add_assoc]
    exact if_pos hin

end Files

end RathalOS.MetadataWrites
