import RathalOS.KernelFiles
import RathalOS.AddedFiles

/-!
Mounting an image. files_system_init copies one sector of the inode table, at
the sector whose number is the block inode_start. With blocks of one sector
these are the first eight inodes of the table; the lookup goes on to
inode_count. With larger blocks the sector is not one of the table.
-/
namespace RathalOS.Mounting

open ByteMemory ByteFile Blocks Bitmaps CStrings Superblocks Inodes FileAccess FirstFit Images
open AddFile EmptyImages AddedFiles KernelFiles

/-- The disk holds an image from its first byte on. -/
def DiskHolds (disk : Memory) (fs : File) : Prop := ∀ a < fs.size, disk a = fs.bytes a

/-- The kernel after files_system_init, with any files open since. -/
def mounted (disk : Memory) (tab : Fin FILE_DESCRIPTOR_TAB_SIZE → FileOpen) : Kernel :=
  { filesSystemInit disk Kernel.initial with fileDescriptorTab := tab }

/-- What the kernel holds of a mounted disk. -/
structure View (sb : Superblock) (disk : Memory) (k : Kernel) : Prop where
  superblock : k.superblock = sb
  inodeCount : k.inodeTable.inodeCount = sb.inodeCount
  loaded : ∀ a < SECTOR_SIZE,
    k.inodeTable.inodes a = disk (SECTOR_SIZE * sb.inodeStart + a)
  rest : ∀ a, SECTOR_SIZE ≤ a → k.inodeTable.inodes a = 0

theorem ideReadSector_inside (disk dst : Memory) {sector start a : ℕ} (hsector : sector < 2 ^ 28)
    (ha : start ≤ a) (ha' : a < start + SECTOR_SIZE) :
    ideReadSector disk sector dst start a = disk (SECTOR_SIZE * sector + (a - start)) := by
  have hnumber : ((sector : ℤ) % 2 ^ 28).toNat = sector := by omega
  rw [ideReadSector, store_inside _ _ ha ha', sectorData, advance_apply, hnumber]

theorem ideReadSector_outside (disk dst : Memory) (sector : ℤ) {start a : ℕ}
    (ha : a < start ∨ start + SECTOR_SIZE ≤ a) :
    ideReadSector disk sector dst start a = dst a := store_outside _ _ ha

section

variable {sb : Superblock} {fs : File} {disk : Memory}

/-- Block numbers of an image are sector numbers the controller takes. -/
theorem starts_lt (hl : Layout sb) : sb.inodeStart < 2 ^ 22 ∧ sb.datablocksStart < 2 ^ 22 := by
  have hbounds := hl.blockSize_bounds
  have hwithin := hl.within
  have hdc := hl.datablockCount_pos
  have hafter := hl.datablocks_after
  have hblocks := Nat.mul_le_mul_left (sb.datablocksStart + sb.datablockCount) hbounds.1
  omega

/-- The first sector of the disk is where the superblock is read from. -/
theorem superblock_of_sector (hc : Consistent sb fs) (hdisk : DiskHolds disk fs) {g : Memory}
    (hg : ∀ a < SECTOR_SIZE, g a = ideReadSector disk 0 (fun _ => 0) 0 a) :
    Superblock.ofMemory g = sb := by
  have hsize : SECTOR_SIZE = 512 := rfl
  have hbounds := hc.layout.blockSize_bounds
  have hcovers := hc.covers
  obtain ⟨h1, h2, h3, h4, h5⟩ := hc.layout.regions.offsets
  have hend := dataRegion_end sb
  rw [← hc.superblock]
  apply Superblock.ofMemory_congr
  intro a ha
  simp only [Superblock.byteSize] at ha
  rw [hg a (by omega), ← Nat.cast_zero,
    ideReadSector_inside disk _ (by omega) (Nat.zero_le _) (by omega), hdisk _ (by omega)]
  simp

theorem mounted_view (hc : Consistent sb fs) (hdisk : DiskHolds disk fs)
    (tab : Fin FILE_DESCRIPTOR_TAB_SIZE → FileOpen) : View sb disk (mounted disk tab) := by
  have hsize : SECTOR_SIZE = 512 := rfl
  obtain ⟨hinodes, -⟩ := starts_lt hc.layout
  -- the head of the buffer is read first and is never overwritten
  have hsb : ∀ g : Memory, (∀ a < SECTOR_SIZE, g a = ideReadSector disk 0 (fun _ => 0) 0 a) →
      Superblock.ofMemory g = sb := fun g hg => superblock_of_sector hc hdisk hg
  have hfirst : (fileSuperblocInit disk Kernel.initial).superblock = sb := hsb _ fun a _ => rfl
  have hsecond : (fileInodeBitmapInit disk (fileSuperblocInit disk Kernel.initial)).superblock =
      sb := hsb _ fun a ha => by
    exact ideReadSector_outside _ _ _ (Or.inl ha)
  have hnumber : intOfUint sb.inodeStart = (sb.inodeStart : ℕ) := intOfUint_of_lt (by omega)
  constructor
  · apply hsb
    intro a ha
    change ideReadSector _ _ (ideReadSector _ _ _ _) _ a = _
    rw [ideReadSector_outside _ _ _ (Or.inl (by omega)), ideReadSector_outside _ _ _ (Or.inl ha)]
    rfl
  · change (fileInodeBitmapInit disk (fileSuperblocInit disk Kernel.initial)).superblock.inodeCount
      = _
    rw [hsecond]
  · intro a ha
    change ideReadSector disk (intOfUint (Kernel.superblock _).inodeStart) _ _ (4 * SECTOR_SIZE + a)
      = _
    rw [hsecond, hnumber, ideReadSector_inside _ _ (by omega) (by omega) (by omega),
      Nat.add_sub_cancel_left]
  · intro a ha
    change ideReadSector disk _ (ideReadSector disk _ (ideReadSector disk _ _ _) _) _
      (4 * SECTOR_SIZE + a) = _
    rw [ideReadSector_outside _ _ _ (Or.inr (by omega)),
      ideReadSector_outside _ _ _ (Or.inr (by omega)),
      ideReadSector_outside _ _ _ (Or.inr (by omega))]
    rfl

/-- With blocks of one sector the first eight slots are those of the image. -/
theorem View.inode_eq {k : Kernel} (h : View sb disk k) (hc : Consistent sb fs)
    (hdisk : DiskHolds disk fs) (hbs : sb.blockSize = 512) {i : ℕ} (hi : i < sb.inodeCount)
    (hi8 : i < 8) : k.inodeTable.inode i = inodeAt sb fs.bytes i := by
  have hl := hc.layout
  have hcovers := hc.covers
  obtain ⟨-, -, hit⟩ := hl.tables_fit
  obtain ⟨h1, h2, h3, h4, h5⟩ := hl.regions.offsets
  have hend := dataRegion_end sb
  simp only [inodeSize] at hit
  apply Inode.ofMemory_congr
  intro t ht
  simp only [inodeSize] at ht
  have hread : inodeSize * i + t < SECTOR_SIZE := by
    simp only [inodeSize, SECTOR_SIZE]
    omega
  rw [advance_apply, advance_apply, h.loaded _ hread, hbs, Nat.add_assoc]
  apply hdisk
  simp only [inodeSize, SECTOR_SIZE]
  rw [hbs] at hit h4 hend hcovers
  omega

/-- No slot after the sector has been written since the kernel started. -/
theorem View.inode_zero {k : Kernel} (h : View sb disk k) {i : ℕ} (hi : 8 ≤ i) :
    k.inodeTable.inode i = Inode.zero := by
  rw [← Inode.ofMemory_zero]
  apply Inode.ofMemory_congr
  intro t _
  rw [advance_apply]
  apply h.rest
  simp only [inodeSize, SECTOR_SIZE]
  omega

/-- The kernel accepts one of the first eight slots when the image has the name there. -/
theorem View.accepts_iff {k : Kernel} (h : View sb disk k) (hc : Consistent sb fs)
    (hdisk : DiskHolds disk fs) (hbs : sb.blockSize = 512) {i : ℕ} (hi : i < sb.inodeCount)
    (hi8 : i < 8) (filename : Memory) :
    matchesName filename (k.inodeTable.inode i) = true ↔
      Live sb fs.bytes i ∧ (inodeAt sb fs.bytes i).shownName = cut 31 filename := by
  rw [matchesName_iff, h.inode_eq hc hdisk hbs hi hi8, Live]
  simp only [hi, true_and, ne_eq]

end

/-- Where the bytes of a slot of the kernel's table were copied from, if they were. -/
def slotSource (sb : Superblock) (slot : ℕ) : Option ℕ :=
  if inodeSize * slot + inodeSize ≤ SECTOR_SIZE then
    some (SECTOR_SIZE * sb.inodeStart + inodeSize * slot)
  else none

/-- The slot was loaded from the inode table of the image. -/
def Loaded (sb : Superblock) (slot : ℕ) : Prop :=
  ∃ a, slotSource sb slot = some a ∧ sb.blockSize * sb.inodeStart ≤ a ∧
    a + inodeSize ≤ sb.blockSize * sb.inodeStart + inodeSize * sb.inodeCount

/-- The lookups of the kernel find what the tools find in the table they read,
with the same size, and only look at slots of the image. -/
def LookupAgrees (sb : Superblock) (fs : File) (k : Kernel) (filename : Memory) : Prop :=
  ∃ stat itab fs' tool found slotsRead,
    fileStat k filename = .ok stat ∧ fileExists k filename = .ok stat.isSome ∧
    inodeTableRead sb.inodeCount sb.inodeStart sb.blockSize fs = .ok (itab, fs') ∧
    fsGetFileInode filename itab = .ok tool ∧
    stat.map (fun s => s.size) = tool.map (fun i => ((itab.inode i).size.toNat : ℤ)) ∧
    inodeGetFromFilename k.inodeTable filename = .ok (found, slotsRead) ∧
    ∀ slot ∈ slotsRead, Loaded sb slot

section Lookups

variable {sb : Superblock} {fs : File} {disk filename : Memory} {k : Kernel}

theorem loaded_blockSize (hl : Layout sb) {slot : ℕ} (h : Loaded sb slot) :
    sb.blockSize = 512 ∧ slot < 8 := by
  obtain ⟨a, hsource, hlow, -⟩ := h
  unfold slotSource at hsource
  split at hsource
  · rename_i hslot
    cases hsource
    simp only [inodeSize, SECTOR_SIZE] at hslot hlow
    refine ⟨?_, by omega⟩
    have hafter := hl.inodeBitmap_after
    have hafter' := hl.datablockBitmap_after
    have hafter'' := hl.inodes_after
    rcases mem_blockSizes_iff.mp hl.blockSize_mem with hb | hb | hb | hb | hb <;>
      rw [hb] at hlow <;> omega
  · cases hsource

theorem loaded_of_lt (hbs : sb.blockSize = 512) {slot : ℕ} (h8 : slot < 8)
    (hcount : slot < sb.inodeCount) : Loaded sb slot := by
  refine ⟨SECTOR_SIZE * sb.inodeStart + inodeSize * slot, if_pos ?_, ?_, ?_⟩
  · simp only [inodeSize, SECTOR_SIZE]
    omega
  · simp only [SECTOR_SIZE]
    rw [hbs]
    omega
  · simp only [inodeSize, SECTOR_SIZE]
    rw [hbs]
    omega

/-- A file is smaller than 2^31 bytes. -/
theorem size_lt (hl : Layout sb) {m : Memory} {inode : Inode} (hs : SizeExact sb m inode) :
    inode.size.toNat < 2 ^ 31 := by
  have hcap := hs.capacity
  unfold blocksFor at hcap
  rcases mem_blockSizes_iff.mp hl.blockSize_mem with hb | hb | hb | hb | hb <;>
    rw [hb] at hcap <;> omega

/-- What the lookups return once the loop over the slots has returned. -/
theorem fileStat_of_found {slot : ℕ} {slotsRead : List ℕ}
    (h : inodeGetFromFilename k.inodeTable filename = .ok (some slot, slotsRead))
    (hslot : slot < k.inodeTable.slots) :
    fileExists k filename = .ok true ∧
      fileStat k filename = .ok (some ⟨intOfUint (k.inodeTable.inode slot).size.toNat, slot⟩) := by
  have hexists : fileExists k filename = .ok true := by
    rw [fileExists, h]
    rfl
  have hget : inodeGet k.inodeTable slot = .ok (k.inodeTable.inode slot) := if_pos hslot
  refine ⟨hexists, ?_⟩
  simp only [fileStat, hexists, ok_bind, if_true, h, hget]

theorem fileStat_of_none {slotsRead : List ℕ}
    (h : inodeGetFromFilename k.inodeTable filename = .ok (none, slotsRead)) :
    fileExists k filename = .ok false ∧ fileStat k filename = .ok none := by
  have hexists : fileExists k filename = .ok false := by
    rw [fileExists, h]
    rfl
  refine ⟨hexists, ?_⟩
  simp only [fileStat, hexists, ok_bind, Bool.false_eq_true, if_false]

/-- The kernel finds a name that one of the first eight inodes carries. -/
theorem inodeGetFromFilename_of_live (hw : WellFormed sb fs) (hdisk : DiskHolds disk fs)
    (hview : View sb disk k) (hbs : sb.blockSize = 512) {i : ℕ} (hi8 : i < 8)
    (hi : Live sb fs.bytes i) (hname : (inodeAt sb fs.bytes i).shownName = cut 31 filename) :
    ∃ slotsRead, inodeGetFromFilename k.inodeTable filename = .ok (some i, slotsRead) ∧
      ∀ s ∈ slotsRead, s ≤ i := by
  have hslots : k.inodeTable.slots = 124 := rfl
  have hcount := hi.1
  apply findInode_found k.inodeTable (matchesName filename) (Nat.zero_le i)
  · rw [hview.inodeCount]
    omega
  · omega
  · exact (hview.accepts_iff hw.toConsistent hdisk hbs hi.1 hi8 filename).mpr ⟨hi, hname⟩
  · intro j _ hji
    cases hmatch : matchesName filename (k.inodeTable.inode j) with
    | false => rfl
    | true =>
      obtain ⟨hj, hjname⟩ :=
        (hview.accepts_iff hw.toConsistent hdisk hbs (by omega) (by omega) filename).mp hmatch
      have hsame := hw.names i j hi hj (hname.trans hjname.symm)
      omega

/-- The lookup of a name that no inode of an image of at most eight inodes carries. -/
theorem inodeGetFromFilename_of_none (hw : WellFormed sb fs) (hdisk : DiskHolds disk fs)
    (hview : View sb disk k) (hbs : sb.blockSize = 512) (hcount : sb.inodeCount ≤ 8)
    (hnone : lookup filename (inodeTableOf sb fs.bytes) = none) :
    ∃ slotsRead, inodeGetFromFilename k.inodeTable filename = .ok (none, slotsRead) ∧
      ∀ s ∈ slotsRead, s < sb.inodeCount := by
  have hslots : k.inodeTable.slots = 124 := rfl
  have hic := hview.inodeCount
  obtain ⟨slotsRead, hfind, hmem⟩ := findInode_spec k.inodeTable (matchesName filename) 0
    k.inodeTable.inodeCount (by omega)
  have hfirst : firstFree (fun j => !matchesName filename (k.inodeTable.inode j))
      k.inodeTable.inodeCount = none := by
    rw [firstFree_none_iff]
    intro j hj
    cases hmatch : matchesName filename (k.inodeTable.inode j) with
    | false => rfl
    | true =>
      obtain ⟨hlive, hname⟩ :=
        (hview.accepts_iff hw.toConsistent hdisk hbs (by omega) (by omega) filename).mp hmatch
      exact absurd hname (lookup_none_iff.mp hnone j hlive)
  refine ⟨slotsRead, ?_, fun s hs => ?_⟩
  · rw [inodeGetFromFilename, hfind]
    exact congrArg (fun found => Except.ok (found, slotsRead)) hfirst
  · have := ((hmem s).mp hs).2.1
    omega

theorem lookupAgrees_of_live (hw : WellFormed sb fs) (hdisk : DiskHolds disk fs)
    (hview : View sb disk k) (hbs : sb.blockSize = 512) {i : ℕ} (hi8 : i < 8)
    (hi : Live sb fs.bytes i) (hname : (inodeAt sb fs.bytes i).shownName = cut 31 filename) :
    LookupAgrees sb fs k filename := by
  have hc := hw.toConsistent
  have hslots : k.inodeTable.slots = 124 := rfl
  have hcount := hi.1
  obtain ⟨slotsRead, hfind, hle⟩ := inodeGetFromFilename_of_live hw hdisk hview hbs hi8 hi hname
  obtain ⟨hexists, hstat⟩ := fileStat_of_found hfind (by omega)
  obtain ⟨p, hread⟩ := inodeTableRead_image hc
  refine ⟨_, _, _, some i, _, slotsRead, hstat, hexists, hread, ?_, ?_, hfind, ?_⟩
  · rw [fsGetFileInode_of_image, lookup_of_live hw.names hi hname]
  · simp only [Option.map_some]
    rw [hview.inode_eq hc hdisk hbs hi.1 hi8, inodeTableOf_inode hi.1,
      intOfUint_of_lt (size_lt hc.layout (hw.sizes i hi))]
  · intro s hs
    have hsi := hle s hs
    exact loaded_of_lt hbs (by omega) (by omega)

theorem lookupAgrees_of_none (hw : WellFormed sb fs) (hdisk : DiskHolds disk fs)
    (hview : View sb disk k) (hbs : sb.blockSize = 512) (hcount : sb.inodeCount ≤ 8)
    (hnone : lookup filename (inodeTableOf sb fs.bytes) = none) :
    LookupAgrees sb fs k filename := by
  obtain ⟨slotsRead, hfind, hlt⟩ := inodeGetFromFilename_of_none hw hdisk hview hbs hcount hnone
  obtain ⟨hexists, hstat⟩ := fileStat_of_none hfind
  obtain ⟨p, hread⟩ := inodeTableRead_image hw.toConsistent
  refine ⟨none, _, _, none, _, slotsRead, hstat, hexists, hread, ?_, rfl, hfind, ?_⟩
  · rw [fsGetFileInode_of_image, hnone]
  · intro s hs
    have hsc := hlt s hs
    exact loaded_of_lt hbs (by omega) hsc

/-- A lookup that only looks at loaded slots stops among the first eight. -/
theorem LookupAgrees.early (h : LookupAgrees sb fs k filename) (hw : WellFormed sb fs)
    (hdisk : DiskHolds disk fs) (hview : View sb disk k) :
    sb.blockSize = 512 ∧ (sb.inodeCount ≤ 8 ∨
      ∃ i < 8, Live sb fs.bytes i ∧ (inodeAt sb fs.bytes i).shownName = cut 31 filename) := by
  have hl := hw.layout
  have hpos := hl.inodeCount_pos
  have hic := hview.inodeCount
  obtain ⟨-, -, -, -, found, slotsRead, -, -, -, -, -, hfind, hloaded⟩ := h
  have hfirst : 0 ∈ slotsRead :=
    findInode_reads hfind (Nat.le_refl 0) (by omega) fun j _ hj => by omega
  have hbs := (loaded_blockSize hl (hloaded 0 hfirst)).1
  refine ⟨hbs, ?_⟩
  by_contra hlate
  rcases not_or.mp hlate with ⟨hmany, hnone⟩
  -- nothing stops the loop before slot 8
  have heighth : 8 ∈ slotsRead := by
    apply findInode_reads hfind (Nat.zero_le 8) (by omega)
    intro j _ hj
    cases hmatch : matchesName filename (k.inodeTable.inode j) with
    | false => rfl
    | true =>
      exact absurd ⟨j, hj, (hview.accepts_iff hw.toConsistent hdisk hbs (by omega) hj
        filename).mp hmatch⟩ hnone
  have := (loaded_blockSize hl (hloaded 8 heighth)).2
  omega

end Lookups

/-- The kernel's view agrees with the tools' for a name exactly when blocks are sectors
and the lookup is over before it leaves the one sector of inodes that was loaded. -/
theorem lookupAgrees_iff {sb : Superblock} {fs : File} {disk : Memory} (hw : WellFormed sb fs)
    (hdisk : DiskHolds disk fs) (tab : Fin FILE_DESCRIPTOR_TAB_SIZE → FileOpen)
    (filename : Memory) :
    LookupAgrees sb fs (mounted disk tab) filename ↔
      sb.blockSize = 512 ∧ (sb.inodeCount ≤ 8 ∨
        ∃ i < 8, Live sb fs.bytes i ∧ (inodeAt sb fs.bytes i).shownName = cut 31 filename) := by
  have hview := mounted_view hw.toConsistent hdisk tab
  constructor
  · intro h
    exact h.early hw hdisk hview
  · intro hearly
    rcases hearly with ⟨hbs, hearly⟩
    cases hfound : lookup filename (inodeTableOf sb fs.bytes) with
    | some i =>
      obtain ⟨hi, hname⟩ := lookup_live hfound
      have hi8 : i < 8 := by
        rcases hearly with hfew | ⟨j, hj8, hj, hjname⟩
        · have := hi.1
          omega
        · rw [hw.names i j hi hj (hname.trans hjname.symm)]
          exact hj8
      exact lookupAgrees_of_live hw hdisk hview hbs hi8 hi hname
    | none =>
      rcases hearly with hfew | ⟨j, hj8, hj, hjname⟩
      · exact lookupAgrees_of_none hw hdisk hview hbs hfew hfound
      · exact absurd hjname (lookup_none_iff.mp hfound j hj)

/-- A table of descriptors none of which is open. -/
def closedTab : Fin FILE_DESCRIPTOR_TAB_SIZE → FileOpen := fun _ => ⟨none, 0, 0⟩

theorem lookupAgrees_large : LookupAgrees smallSuperblock largeImage
    (mounted largeImage.bytes closedTab) (nameOf 97) :=
  (lookupAgrees_iff largeImage_wellFormed (fun _ _ => rfl) _ _).mpr ⟨rfl, Or.inl (by decide)⟩

/-- The small superblock with blocks of two sectors. -/
def wideSuperblock : Superblock := { smallSuperblock with blockSize := 1024 }

/-- The image of wide blocks with a file `a` of one byte. -/
def wideImage : File :=
  imageOf (addFile (fun _ => 0) (zeroFile 1) (nameOf 97) 1 (emptyImage wideSuperblock))

theorem wideImage_wellFormed : WellFormed wideSuperblock wideImage := by
  have hl : Layout wideSuperblock := by constructor <;> decide
  have hs : Signed wideSuperblock := by constructor <;> decide
  have hw := emptyImage_wellFormed hl hs (by decide) (by decide)
  have hadd : addFile (fun _ => 0) (zeroFile 1) (nameOf 97) 1 (emptyImage wideSuperblock) =
      .ok (.added, wideImage) := eq_of_succeeded (by decide +kernel)
  obtain ⟨hnone, hsize, i, data, tables, hadded⟩ :=
    added_of_addFile hw.toConsistent (by decide) hadd
  exact hadded.wellFormed hw hsize (by decide) hnone

/-- The inode table starts at block 3, byte 3072; sector 3 is byte 1536, in the
inode bitmap. The kernel does not find the file that is there. -/
theorem lookupAgrees_wide : WellFormed wideSuperblock wideImage ∧
    lookup (nameOf 97) (inodeTableOf wideSuperblock wideImage.bytes) = some 1 ∧
    fileExists (mounted wideImage.bytes closedTab) (nameOf 97) = .ok false ∧
    ¬ LookupAgrees wideSuperblock wideImage (mounted wideImage.bytes closedTab)
      (nameOf 97) := by
  refine ⟨wideImage_wellFormed, by decide +kernel, by decide +kernel, fun h => ?_⟩
  have hdisk : DiskHolds wideImage.bytes wideImage := fun _ _ => rfl
  have hview := mounted_view wideImage_wellFormed.toConsistent hdisk closedTab
  exact absurd (h.early wideImage_wellFormed hdisk hview).1 (by decide)

end RathalOS.Mounting
