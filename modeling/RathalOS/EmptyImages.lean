import RathalOS.Images

/-!
The empty file system. With only bit 0 set in both bitmaps and an inode table
of zeros, no inode is live and no block is owned, so the image is well formed
whatever its layout. The images that the examples of later modules start from
are of this kind.
-/
namespace RathalOS.EmptyImages

open ByteMemory ByteFile Bitmaps CStrings Superblocks Inodes Images Ownership

/-- The tables of an empty file system. -/
structure Empty (sb : Superblock) (m : Memory) : Prop where
  inodeBit_iff : ∀ i < sb.inodeCount, inodeBit sb m i = true ↔ i = 0
  dataBit_iff : ∀ b < sb.datablockCount, dataBit sb m b = true ↔ b = 0
  inode : ∀ i < sb.inodeCount, inodeAt sb m i = Inode.zero

theorem Empty.not_live {sb : Superblock} {m : Memory} (h : Empty sb m) (i : ℕ) :
    ¬ Live sb m i := by
  intro hlive
  rcases hlive with ⟨hi, hlive⟩
  rw [h.inode i hi] at hlive
  exact hlive rfl

theorem Empty.wellFormed {sb : Superblock} {fs : File} (h : Empty sb fs.bytes)
    (hsb : Superblock.ofMemory fs.bytes = sb) (hv : superblockValid fs.bytes) (hl : Layout sb)
    (hcovers : sb.blockSize * (sb.datablocksStart + sb.datablockCount) ≤ fs.size)
    (hic : sb.inodeCount ≤ 65535) (hdc : sb.datablockCount ≤ 65536) : WellFormed sb fs where
  superblock := hsb
  valid := hv
  layout := hl
  covers := hcovers
  inodeCount_le := hic
  datablockCount_le := hdc
  number i hi := Or.inl (by rw [h.inode i hi]; rfl)
  free_zero i hi _ := h.inode i hi
  inodeBit_iff i hi := by
    rw [h.inodeBit_iff i hi, h.inode i hi]
    change i = 0 ↔ i = 0 ∨ 0 = i
    omega
  blocks := {
    distinct := fun i _ _ _ hi => (h.not_live i hi).elim
    inRange := fun i _ hi => (h.not_live i hi).elim
    held_iff := fun b hb => by
      rw [h.dataBit_iff b hb]
      exact ⟨Or.inl, fun hor => hor.resolve_right fun ⟨i, _, hi, _⟩ => h.not_live i hi⟩ }
  names i _ hi := (h.not_live i hi).elim
  sizes i hi := (h.not_live i hi).elim

/-- What a superblock must hold to be accepted when it is read back. -/
structure Signed (sb : Superblock) : Prop where
  fits : ∀ w ∈ sb.words, w < 2 ^ 32
  signature : ∀ i : Fin 4, sb.signature i = FS_SIGNATURE i
  versionMajor : sb.versionMajor = VERSION_MAJOR
  blockSize_mem : sb.blockSize ∈ blockSizes

theorem Signed.read {sb : Superblock} {m : Memory} (h : Signed sb)
    (hm : ∀ k < Superblock.byteSize, m k = sb.toMemory k) :
    Superblock.ofMemory m = sb ∧ superblockValid m := by
  have hsb : Superblock.ofMemory sb.toMemory = sb := Superblock.ofMemory_toMemory sb h.fits
  refine ⟨(Superblock.ofMemory_congr hm).trans hsb, (superblockValid_congr hm).mpr ⟨?_, ?_, ?_⟩⟩
  · rw [strncmp_eq_zero_iff]
    apply cut_congr
    intro i hi
    rw [Superblock.toMemory, dif_pos (by omega)]
    exact h.signature ⟨i, by omega⟩
  · rw [hsb, h.versionMajor]
  · rw [hsb]
    exact h.blockSize_mem

/-- An empty file system of a given layout. -/
def emptyImage (sb : Superblock) : File where
  bytes := fun a =>
    if sb.blockSize * (sb.datablocksStart + sb.datablockCount) ≤ a then 0
    else if a < Superblock.byteSize then sb.toMemory a
    else if a = sb.blockSize * sb.inodeBitmapStart ∨ a = sb.blockSize * sb.datablockBitmapStart
    then 1
    else 0
  size := sb.blockSize * (sb.datablocksStart + sb.datablockCount)
  pos := 0
  eof := fun _ ha => if_pos ha

section

variable {sb : Superblock}

theorem one_getLsbD (i : ℕ) : (1 : Byte).getLsbD i = decide (i = 0) := by
  rw [show (1 : Byte) = 1#8 from rfl, BitVec.getLsbD_one]
  simp

/-- Packed bits of which only the first byte is not zero, and is 1. -/
theorem bitAt_single {m : Memory} {offset i : ℕ} (hfirst : m offset = 1)
    (hrest : i / 8 ≠ 0 → m (offset + i / 8) = 0) : bitAt m offset i = true ↔ i = 0 := by
  unfold bitAt
  by_cases hi : i / 8 = 0
  · rw [hi, Nat.add_zero, hfirst, one_getLsbD, decide_eq_true_eq]
    omega
  · rw [hrest hi]
    refine iff_of_false (by simp) (by omega)

theorem emptyImage_empty (hl : Layout sb) : Empty sb (emptyImage sb).bytes := by
  have hbounds := hl.blockSize_bounds
  have hsize : Superblock.byteSize = 78 := rfl
  obtain ⟨h1, h2, h3, h4, h5⟩ := hl.regions.offsets
  obtain ⟨hib, hdb, hit⟩ := hl.tables_fit
  have hic := hl.inodeCount_pos
  have hdc := hl.datablockCount_pos
  have hend := dataRegion_end sb
  simp only [inodeSize] at hit
  constructor
  · intro i hi
    apply bitAt_single
    · simp only [emptyImage]
      rw [if_neg (by omega), if_neg (by omega), if_pos (Or.inl trivial)]
    · intro hne
      simp only [emptyImage]
      rw [if_neg (by omega), if_neg (by omega), if_neg (by omega)]
  · intro b hb
    apply bitAt_single
    · simp only [emptyImage]
      rw [if_neg (by omega), if_neg (by omega), if_pos (Or.inr trivial)]
    · intro hne
      simp only [emptyImage]
      rw [if_neg (by omega), if_neg (by omega), if_neg (by omega)]
  · intro i hi
    rw [← Inode.ofMemory_zero]
    apply Inode.ofMemory_congr
    intro k hk
    simp only [inodeSize] at hk
    simp only [emptyImage, advance_apply, inodeSize]
    rw [if_neg (by omega), if_neg (by omega), if_neg (by omega)]

theorem emptyImage_wellFormed (hl : Layout sb) (hs : Signed sb) (hic : sb.inodeCount ≤ 65535)
    (hdc : sb.datablockCount ≤ 65536) : WellFormed sb (emptyImage sb) := by
  have hbounds := hl.blockSize_bounds
  have hoffsets := hl.regions.offsets
  have hread : ∀ k < Superblock.byteSize, (emptyImage sb).bytes k = sb.toMemory k := by
    intro k hk
    have hsize : Superblock.byteSize = 78 := rfl
    have hend := dataRegion_end sb
    simp only [emptyImage]
    rw [if_neg (by omega), if_pos hk]
  obtain ⟨hsb, hv⟩ := hs.read hread
  exact (emptyImage_empty hl).wellFormed hsb hv hl (Nat.le_refl _) hic hdc

end

/-- What superblock_create computes for 512-byte blocks, 8 inodes and 8 data blocks. -/
def smallSuperblock : Superblock where
  signature := fun i => FS_SIGNATURE i
  versionMajor := VERSION_MAJOR
  versionMinor := VERSION_MINOR
  label := fun _ => 0
  blockSize := 512
  inodeBitmapStart := 1
  inodeBitmapBlockCount := 1
  datablockBitmapStart := 2
  datablockBitmapBlockCount := 1
  inodeStart := 3
  inodeCount := 8
  inodeBlockCount := 1
  datablocksStart := 4
  datablockCount := 8

theorem smallSuperblock_layout : Layout smallSuperblock := by
  constructor <;> decide

theorem smallSuperblock_signed : Signed smallSuperblock := by
  constructor <;> decide

/-- An empty image of eight inodes and eight data blocks. -/
theorem smallImage_wellFormed : WellFormed smallSuperblock (emptyImage smallSuperblock) :=
  emptyImage_wellFormed smallSuperblock_layout smallSuperblock_signed (by decide) (by decide)

end RathalOS.EmptyImages
