import RathalOS.Mounting

/-!
Removing files in the kernel. file_remove looks the name up, clears the bit of the
inode in the inode bitmap and fills the inode with zeros. Both are found by the number
the inode stores, which is read once for each; in consistent tables it is the
slot the name was found in. Tables and bitmap lie in the same buffer.
-/
namespace RathalOS.FileRemoval

open ByteMemory ByteFile Bitmaps CStrings Superblocks Inodes FileAccess FirstFit KernelFiles

/-- `inode_bitmap`, whose bits may be accessed up to the end of the buffer. -/
def inodeBitmap (k : Kernel) : Bitmap where
  count := k.inodeBitmapCount
  size := GLOBAL_BUFFER_SIZE - SECTOR_SIZE
  bits := advance k.globalBuffer SECTOR_SIZE

/-- The buffer after an assignment to the bits. -/
def setInodeBitmap (k : Kernel) (bitmap : Bitmap) : Kernel :=
  { k with
    globalBuffer :=
      store k.globalBuffer SECTOR_SIZE (GLOBAL_BUFFER_SIZE - SECTOR_SIZE) bitmap.bits }

/-- `memset(&inode_table.inodes[index], 0, sizeof(inode_t))`. -/
def clearInode (k : Kernel) (index : ℕ) : Except Fault Kernel :=
  if index < k.inodeTable.slots then
    .ok { k with
      globalBuffer :=
        store k.globalBuffer (4 * SECTOR_SIZE + inodeSize * index) inodeSize (fun _ => 0) }
  else .error .undefined

def fileRemove (k : Kernel) (filename : Memory) : Except Fault (ℤ × Kernel) := do
  let found ← fileExists k filename
  if found then do
    let (found, _) ← inodeGetFromFilename k.inodeTable filename
    match found with
    | none => .error .undefined
    | some slot => do
      let inode ← inodeGet k.inodeTable slot
      let bitmap ← bitmapSet (inodeBitmap k) inode.number.toNat false
      let k := setInodeBitmap k bitmap
      let inode ← inodeGet k.inodeTable slot
      let k ← clearInode k inode.number.toNat
      .ok (0, k)
  else .ok (1, k)

/-- The tables of a kernel agree: every slot of the table exists and is free or holds its
own number, the bitmap has the bits of inode 0 and of the inodes in use, and live names
differ. -/
structure TablesConsistent (k : Kernel) : Prop where
  inside : k.inodeTable.inodeCount ≤ k.inodeTable.slots
  number : ∀ i < k.inodeTable.inodeCount,
    (k.inodeTable.inode i).number = 0 ∨ (k.inodeTable.inode i).number.toNat = i
  bit_iff : ∀ i < k.inodeTable.inodeCount,
    (inodeBitmap k).test i = true ↔ i = 0 ∨ (k.inodeTable.inode i).number.toNat = i
  names : ∀ i < k.inodeTable.inodeCount, ∀ j < k.inodeTable.inodeCount,
    (k.inodeTable.inode i).number ≠ 0 → (k.inodeTable.inode j).number ≠ 0 →
    (k.inodeTable.inode i).shownName = (k.inodeTable.inode j).shownName → i = j

/-- The number of bits before the inode table. -/
def bitCount : ℕ := 8 * (4 * SECTOR_SIZE - SECTOR_SIZE)

/-- Kernel k' is kernel k without the inode in slot i. -/
structure Removed (k : Kernel) (i : ℕ) (k' : Kernel) : Prop where
  cleared : k'.inodeTable.inode i = Inode.zero
  inode : ∀ j, j ≠ i → k'.inodeTable.inode j = k.inodeTable.inode j
  bit : ∀ b < bitCount,
    (inodeBitmap k').test b = Function.update (inodeBitmap k).test i false b
  superblock : k'.superblock = k.superblock
  bitmapCount : k'.inodeBitmapCount = k.inodeBitmapCount
  bitmapSize : k'.inodeBitmapSize = k.inodeBitmapSize
  tableCount : k'.inodeTableCount = k.inodeTableCount
  tableSize : k'.inodeTableSize = k.inodeTableSize
  descriptors : k'.fileDescriptorTab = k.fileDescriptorTab

section Removal

variable {k k' : Kernel} {i : ℕ} {filename : Memory}

theorem setInodeBitmap_byte (k : Kernel) (bitmap : Bitmap) {a : ℕ} (ha : SECTOR_SIZE ≤ a)
    (ha' : a < GLOBAL_BUFFER_SIZE) :
    (setInodeBitmap k bitmap).globalBuffer a = bitmap.bits (a - SECTOR_SIZE) :=
  store_inside _ _ ha (by simp only [SECTOR_SIZE, GLOBAL_BUFFER_SIZE] at ha' ⊢; omega)

theorem slot_byte (k : Kernel) (j t : ℕ) :
    advance k.inodeTable.inodes (inodeSize * j) t =
      k.globalBuffer (4 * SECTOR_SIZE + inodeSize * j + t) := by
  rw [Nat.add_assoc]
  rfl

/-- Clearing the bit of a slot changes no byte outside the bits. -/
theorem bitmapSet_buffer (k : Kernel) {i : ℕ} (hi : i < k.inodeTable.slots) :
    ∃ bitmap, bitmapSet (inodeBitmap k) i false = .ok bitmap ∧
      bitmap.test = Function.update (inodeBitmap k).test i false ∧
      ∀ a, a < SECTOR_SIZE ∨ 4 * SECTOR_SIZE ≤ a →
        (setInodeBitmap k bitmap).globalBuffer a = k.globalBuffer a := by
  have hslots : k.inodeTable.slots = 124 := rfl
  have hsize : (inodeBitmap k).size = 9488 := rfl
  obtain ⟨bitmap, hset, -, -, htest⟩ := bitmapSet_spec (inodeBitmap k) i false (by omega) (by omega)
  refine ⟨bitmap, hset, htest, fun a ha => ?_⟩
  rw [bitmapSet, if_pos ⟨by omega, by omega⟩] at hset
  cases hset
  simp only [SECTOR_SIZE] at ha
  by_cases hin : 512 ≤ a ∧ a < 10000
  · rw [setInodeBitmap_byte k _ hin.1 hin.2]
    simp only [SECTOR_SIZE]
    rw [Function.update_of_ne (by omega)]
    simp only [inodeBitmap, SECTOR_SIZE, advance_apply]
    rw [Nat.add_sub_cancel' hin.1]
  · exact store_outside _ _ (by simp only [SECTOR_SIZE, GLOBAL_BUFFER_SIZE]; omega)

/-- Zeros in the slot, and nothing else changed. -/
theorem clearInode_spec (k : Kernel) {i : ℕ} (hi : i < k.inodeTable.slots) :
    ∃ k', clearInode k i = .ok k' ∧ k' = { k with globalBuffer := k'.globalBuffer } ∧
      (∀ t < inodeSize, k'.globalBuffer (4 * SECTOR_SIZE + inodeSize * i + t) = 0) ∧
      ∀ a, a < 4 * SECTOR_SIZE + inodeSize * i ∨
        4 * SECTOR_SIZE + inodeSize * i + inodeSize ≤ a → k'.globalBuffer a = k.globalBuffer a := by
  refine ⟨_, if_pos hi, rfl, fun t ht => ?_, fun a ha => ?_⟩
  · dsimp only
    rw [store_inside _ _ (Nat.le_add_right _ t) (by omega)]
  · dsimp only
    rw [store_outside _ _ ha]

/-- Clearing the bit of a slot and then the slot removes the inode and nothing else. -/
theorem removed_of_cleared (hi : i < k.inodeTable.slots) :
    ∃ bitmap k', bitmapSet (inodeBitmap k) i false = .ok bitmap ∧
      (∀ j, (setInodeBitmap k bitmap).inodeTable.inode j = k.inodeTable.inode j) ∧
      clearInode (setInodeBitmap k bitmap) i = .ok k' ∧ Removed k i k' := by
  have hsector : SECTOR_SIZE = 512 := rfl
  have hbuffer : GLOBAL_BUFFER_SIZE = 10000 := rfl
  have hinode : inodeSize = 64 := rfl
  obtain ⟨bitmap, hset, htest, hkept⟩ := bitmapSet_buffer k hi
  have htable : ∀ j, (setInodeBitmap k bitmap).inodeTable.inode j = k.inodeTable.inode j := by
    intro j
    apply Inode.ofMemory_congr
    intro t _
    rw [slot_byte, slot_byte, hkept _ (Or.inr (by omega))]
  obtain ⟨k', hclear, hk', hzero, hframe⟩ := clearInode_spec (setInodeBitmap k bitmap) hi
  refine ⟨bitmap, k', hset, htable, hclear, ?_⟩
  constructor
  case cleared =>
    rw [← Inode.ofMemory_zero]
    apply Inode.ofMemory_congr
    intro t ht
    rw [slot_byte, hzero t ht]
  case inode =>
    intro j hj
    rw [← htable j]
    apply Inode.ofMemory_congr
    intro t ht
    rw [slot_byte, slot_byte, hframe]
    rw [hinode] at ht ⊢
    omega
  case bit =>
    intro b hb
    have hbyte : b < 8 * (4 * SECTOR_SIZE - SECTOR_SIZE) := hb
    rw [← htest]
    simp only [Bitmap.test, bitAt, inodeBitmap, advance_apply, Nat.zero_add]
    rw [hframe _ (by omega), setInodeBitmap_byte k bitmap (by omega) (by omega),
      Nat.add_sub_cancel_left]
  case superblock =>
    apply Superblock.ofMemory_congr
    intro t ht
    simp only [Superblock.byteSize] at ht
    rw [hframe t (by omega), hkept t (by omega)]
  case bitmapCount => rw [hk']; rfl
  case bitmapSize => rw [hk']; rfl
  case tableCount => rw [hk']; rfl
  case tableSize => rw [hk']; rfl
  case descriptors => rw [hk']; rfl

/-- A file whose inode holds the number of its slot is removed. -/
theorem fileRemove_found {slotsRead : List ℕ}
    (hfind : inodeGetFromFilename k.inodeTable filename = .ok (some i, slotsRead))
    (hnumber : (k.inodeTable.inode i).number.toNat = i) :
    ∃ k', fileRemove k filename = .ok (0, k') ∧ Removed k i k' := by
  have hi : i < k.inodeTable.slots := (findInode_some hfind).2.1
  obtain ⟨bitmap, k', hset, htable, hclear, hremoved⟩ := removed_of_cleared hi
  have hget : inodeGet k.inodeTable i = .ok (k.inodeTable.inode i) := if_pos hi
  have hget' : inodeGet (setInodeBitmap k bitmap).inodeTable i = .ok (k.inodeTable.inode i) := by
    rw [← htable i]
    exact if_pos hi
  refine ⟨k', ?_, hremoved⟩
  simp only [fileRemove, (Mounting.fileStat_of_found hfind hi).1, ok_bind, if_true, hfind, hget,
    hnumber, hset, hget', hclear]

/-- A name that is not found is not removed. -/
theorem fileRemove_none {slotsRead : List ℕ}
    (hfind : inodeGetFromFilename k.inodeTable filename = .ok (none, slotsRead)) :
    fileRemove k filename = .ok (1, k) := by
  simp only [fileRemove, (Mounting.fileStat_of_none hfind).1, ok_bind, Bool.false_eq_true,
    if_false]

end Removal

section Lookups

variable {k k' : Kernel} {i : ℕ} {filename : Memory}

/-- The lookups of a kernel none of whose slots lies outside the buffer. -/
theorem lookups_eq (h : k.inodeTable.inodeCount ≤ k.inodeTable.slots) (filename : Memory) :
    (∃ slotsRead, inodeGetFromFilename k.inodeTable filename =
      .ok (lookup filename k.inodeTable, slotsRead)) ∧
    fileExists k filename = .ok (lookup filename k.inodeTable).isSome ∧
    fileStat k filename = .ok ((lookup filename k.inodeTable).map
      fun i => ⟨intOfUint (k.inodeTable.inode i).size.toNat, i⟩) := by
  obtain ⟨slotsRead, hfind, -⟩ := findInode_spec k.inodeTable (matchesName filename) 0
    k.inodeTable.inodeCount (by omega)
  refine ⟨⟨slotsRead, hfind⟩, ?_⟩
  cases hfound : lookup filename k.inodeTable with
  | none =>
    have hnone : inodeGetFromFilename k.inodeTable filename = .ok (none, slotsRead) := by
      rw [← hfound]
      exact hfind
    exact Mounting.fileStat_of_none hnone
  | some i =>
    have hsome : inodeGetFromFilename k.inodeTable filename = .ok (some i, slotsRead) := by
      rw [← hfound]
      exact hfind
    exact Mounting.fileStat_of_found hsome (findInode_some hsome).2.1

/-- With distinct names a name is found at the live inode that carries it. -/
theorem TablesConsistent.lookup_eq_some_iff (h : TablesConsistent k) (filename : Memory) (i : ℕ) :
    lookup filename k.inodeTable = some i ↔ i < k.inodeTable.inodeCount ∧
      (k.inodeTable.inode i).number ≠ 0 ∧ (k.inodeTable.inode i).shownName = cut 31 filename := by
  constructor
  · intro hfound
    obtain ⟨hi, hlive, hname, -⟩ := lookup_some hfound
    exact ⟨hi, hlive, hname⟩
  · intro hcarries
    rcases hcarries with ⟨hi, hlive, hname⟩
    cases hfound : lookup filename k.inodeTable with
    | none => exact absurd hname (lookup_eq_none_iff.mp hfound i hi hlive)
    | some j =>
      obtain ⟨hj, hjlive, hjname, -⟩ := lookup_some hfound
      rw [h.names i hi j hj hlive hjlive (hname.trans hjname.symm)]

/-- A live inode holds the number of its slot, which is not 0. -/
theorem TablesConsistent.number_eq (h : TablesConsistent k) (hi : i < k.inodeTable.inodeCount)
    (hlive : (k.inodeTable.inode i).number ≠ 0) :
    (k.inodeTable.inode i).number.toNat = i ∧ 0 < i := by
  have hnumber := (h.number i hi).resolve_left hlive
  refine ⟨hnumber, Nat.pos_of_ne_zero fun hzero => hlive ?_⟩
  rw [hzero] at hnumber ⊢
  exact BitVec.eq_of_toNat_eq hnumber

/-- The inodes in use after a removal. -/
theorem Removed.live_iff (h : Removed k i k') (j : ℕ) :
    (k'.inodeTable.inode j).number ≠ 0 ↔ j ≠ i ∧ (k.inodeTable.inode j).number ≠ 0 := by
  by_cases hji : j = i
  · rw [hji, h.cleared]
    exact iff_of_false (fun hne => hne rfl) fun hne => hne.1 rfl
  · rw [h.inode j hji]
    exact (and_iff_right hji).symm

theorem Removed.inodeCount (h : Removed k i k') :
    k'.inodeTable.inodeCount = k.inodeTable.inodeCount := h.tableCount

/-- Removing an inode other than the first keeps the tables consistent. -/
theorem Removed.consistent (h : Removed k i k') (hc : TablesConsistent k) (hi : 0 < i) :
    TablesConsistent k' := by
  have hslots : k'.inodeTable.slots = 124 := rfl
  have hslots' : k.inodeTable.slots = 124 := rfl
  have hinside := hc.inside
  have hcount := h.inodeCount
  constructor
  case inside => omega
  case number =>
    intro j hj
    by_cases hji : j = i
    · rw [hji, h.cleared]
      exact Or.inl rfl
    · rw [h.inode j hji]
      exact hc.number j (by omega)
  case bit_iff =>
    intro j hj
    have hbits : bitCount = 12288 := rfl
    rw [h.bit j (by omega)]
    by_cases hji : j = i
    · have hzero : (Inode.zero.number).toNat = 0 := rfl
      rw [hji, Function.update_self, h.cleared, hzero]
      simp only [Bool.false_eq_true, false_iff]
      omega
    · rw [Function.update_of_ne hji, h.inode j hji]
      exact hc.bit_iff j (by omega)
  case names =>
    intro a ha b hb halive hblive hname
    obtain ⟨hai, halive⟩ := (h.live_iff a).mp halive
    obtain ⟨hbi, hblive⟩ := (h.live_iff b).mp hblive
    rw [h.inode a hai, h.inode b hbi] at hname
    exact hc.names a (by omega) b (by omega) halive hblive hname

/-- The lookups after a removal: the name is gone and every other one is found as before. -/
theorem Removed.lookup (h : Removed k i k') (hc : TablesConsistent k)
    (hfound : FileAccess.lookup filename k.inodeTable = some i) :
    FileAccess.lookup filename k'.inodeTable = none ∧ ∀ other, cut 31 other ≠ cut 31 filename →
      FileAccess.lookup other k'.inodeTable = FileAccess.lookup other k.inodeTable := by
  obtain ⟨hi, hlive, hname⟩ := (hc.lookup_eq_some_iff filename i).mp hfound
  have hc' := h.consistent hc (hc.number_eq hi hlive).2
  have hcount := h.inodeCount
  constructor
  · rw [lookup_eq_none_iff]
    intro j hj hjlive hjname
    obtain ⟨hji, hjlive⟩ := (h.live_iff j).mp hjlive
    rw [h.inode j hji] at hjname
    exact hji (hc.names j (by omega) i hi hjlive hlive (hjname.trans hname.symm))
  · intro other hother
    apply Option.ext
    intro j
    rw [hc'.lookup_eq_some_iff, hc.lookup_eq_some_iff, hcount, h.live_iff]
    by_cases hji : j = i
    · rw [hji, hname]
      exact iff_of_false (fun hne => hne.2.1.1 rfl) fun heq => hother heq.2.2.symm
    · rw [h.inode j hji]
      simp only [hji, ne_eq, not_false_eq_true, true_and]

/-- What a lookup of a name that is still found returns does not change. -/
theorem Removed.fileStat (h : Removed k i k') (hc : TablesConsistent k)
    (hfound : FileAccess.lookup filename k.inodeTable = some i) {other : Memory}
    (hother : cut 31 other ≠ cut 31 filename) :
    fileExists k' other = fileExists k other ∧
      KernelFiles.fileStat k' other = KernelFiles.fileStat k other := by
  obtain ⟨hi, hlive, hname⟩ := (hc.lookup_eq_some_iff filename i).mp hfound
  have hsame := (h.lookup hc hfound).2 other hother
  obtain ⟨-, hexists, hstat⟩ := lookups_eq hc.inside other
  obtain ⟨-, hexists', hstat'⟩ :=
    lookups_eq (h.consistent hc (hc.number_eq hi hlive).2).inside other
  rw [hexists, hexists', hstat, hstat', hsame]
  refine ⟨rfl, ?_⟩
  cases hj : FileAccess.lookup other k.inodeTable with
  | none => rw [Option.map_none, Option.map_none]
  | some j =>
    obtain ⟨-, -, hjname⟩ := (hc.lookup_eq_some_iff other j).mp hj
    have hji : j ≠ i := by
      rintro rfl
      exact hother (hjname.symm.trans hname)
    rw [Option.map_some, Option.map_some, h.inode j hji]

end Lookups

section Mounted

open Images Mounting

variable {sb : Superblock} {fs : File} {disk : Memory}

/-- The bits of the first sector of the inode bitmap, when blocks are sectors. -/
theorem mounted_bit (hc : Consistent sb fs) (hdisk : DiskHolds disk fs) (hbs : sb.blockSize = 512)
    (tab : Fin FILE_DESCRIPTOR_TAB_SIZE → FileOpen) {i : ℕ} (hi : i < 8 * SECTOR_SIZE)
    (hcount : i < sb.inodeCount) :
    (inodeBitmap (mounted disk tab)).test i = inodeBit sb fs.bytes i := by
  have hsector : SECTOR_SIZE = 512 := rfl
  have hcovers := hc.covers
  obtain ⟨-, hend, -⟩ := hc.layout.regions.block_range hc.layout.datablockCount_pos
  obtain ⟨h1, h2, h3, h4, h5⟩ := hc.layout.regions.offsets
  obtain ⟨hfits, -⟩ := hc.layout.tables_fit
  rw [hbs] at hcovers hend h1 h2 h3 h4 h5 hfits
  have hfirst : (fileSuperblocInit disk Kernel.initial).superblock = sb :=
    superblock_of_sector hc hdisk fun a _ => rfl
  have hnumber : intOfUint sb.inodeBitmapStart = (sb.inodeBitmapStart : ℕ) :=
    intOfUint_of_lt (by omega)
  have hbyte : (mounted disk tab).globalBuffer (SECTOR_SIZE + i / 8) =
      fs.bytes (sb.blockSize * sb.inodeBitmapStart + i / 8) := by
    change ideReadSector disk _ (ideReadSector disk
      (intOfUint (fileSuperblocInit disk Kernel.initial).superblock.inodeBitmapStart) _ _) _ _ = _
    rw [hfirst, hnumber, ideReadSector_outside _ _ _ (Or.inl (by omega)),
      ideReadSector_inside _ _ (by omega) (by omega) (by omega), Nat.add_sub_cancel_left, hbs,
      hsector]
    exact hdisk _ (by omega)
  simp only [Bitmap.test, bitAt, inodeBit, inodeBitmap, advance_apply, Nat.zero_add]
  rw [hbyte]

/-- The tables of a mounted image of at most eight inodes are consistent. -/
theorem mounted_consistent (hw : WellFormed sb fs) (hdisk : DiskHolds disk fs)
    (hbs : sb.blockSize = 512) (hcount : sb.inodeCount ≤ 8)
    (tab : Fin FILE_DESCRIPTOR_TAB_SIZE → FileOpen) : TablesConsistent (mounted disk tab) := by
  have hc := hw.toConsistent
  have hview := mounted_view hc hdisk tab
  have hinodes := hview.inodeCount
  have hslots : (mounted disk tab).inodeTable.slots = 124 := rfl
  have hinode : ∀ i < sb.inodeCount,
      (mounted disk tab).inodeTable.inode i = inodeAt sb fs.bytes i :=
    fun i hi => hview.inode_eq hc hdisk hbs hi (by omega)
  rw [← hinodes] at hinode
  constructor
  case inside => omega
  case number =>
    intro i hi
    rw [hinode i hi]
    exact hc.number i (by omega)
  case bit_iff =>
    intro i hi
    have hsector : SECTOR_SIZE = 512 := rfl
    rw [hinode i hi, mounted_bit hc hdisk hbs tab (by omega) (by omega)]
    exact hc.inodeBit_iff i (by omega)
  case names =>
    intro i hi j hj hlive hlive' hname
    rw [hinode i hi] at hlive hname
    rw [hinode j hj] at hlive' hname
    exact hw.names i j ⟨by omega, hlive⟩ ⟨by omega, hlive'⟩ hname

end Mounted

/-- What a call of file_remove does to consistent tables: it removes the file of the name
if there is one, and otherwise nothing. -/
structure RemovesExactly (k : Kernel) (filename : Memory) (ret : ℤ) (k' : Kernel) : Prop where
  ret_eq : ret = 0 ↔ fileExists k filename = .ok true
  refused : fileExists k filename ≠ .ok true → ret = 1 ∧ k' = k
  removed : fileExists k filename = .ok true → ∃ i, 0 < i ∧ i < k.inodeTable.inodeCount ∧
    (k.inodeTable.inode i).number.toNat = i ∧
    (k.inodeTable.inode i).shownName = cut 31 filename ∧ Removed k i k'
  gone : fileExists k' filename = .ok false
  others : ∀ other, cut 31 other ≠ cut 31 filename →
    fileExists k' other = fileExists k other ∧ fileStat k' other = fileStat k other
  consistent : TablesConsistent k'

/-- In consistent tables file_remove removes exactly the file of the name. -/
theorem fileRemove_exact {k : Kernel} (h : TablesConsistent k) (filename : Memory) :
    ∃ ret k', fileRemove k filename = .ok (ret, k') ∧ RemovesExactly k filename ret k' := by
  obtain ⟨⟨slotsRead, hfind⟩, hexists, -⟩ := lookups_eq h.inside filename
  cases hfound : lookup filename k.inodeTable with
  | none =>
    rw [hfound] at hfind hexists
    have hnot : fileExists k filename ≠ .ok true := by
      rw [hexists]
      decide
    refine ⟨1, k, fileRemove_none hfind, ?_⟩
    constructor
    case ret_eq => exact iff_of_false (by decide) hnot
    case refused => exact fun _ => ⟨rfl, rfl⟩
    case removed => exact fun hyes => absurd hyes hnot
    case gone => exact hexists
    case others => exact fun _ _ => ⟨rfl, rfl⟩
    case consistent => exact h
  | some i =>
    rw [hfound] at hfind hexists
    obtain ⟨hi, hlive, hname⟩ := (h.lookup_eq_some_iff filename i).mp hfound
    obtain ⟨hnumber, hpos⟩ := h.number_eq hi hlive
    obtain ⟨k', hremove, hremoved⟩ := fileRemove_found hfind hnumber
    have hc' := hremoved.consistent h hpos
    refine ⟨0, k', hremove, ?_⟩
    constructor
    case ret_eq => exact iff_of_true rfl hexists
    case refused => exact fun hnot => absurd hexists hnot
    case removed => exact fun _ => ⟨i, hpos, hi, hnumber, hname, hremoved⟩
    case gone =>
      obtain ⟨-, hexists', -⟩ := lookups_eq hc'.inside filename
      rw [hexists', (hremoved.lookup h hfound).1]
      rfl
    case others => exact fun other hother => hremoved.fileStat h hfound hother
    case consistent => exact hc'

/-- The kernel that has mounted the large image. -/
def largeKernel : Kernel := Mounting.mounted AddedFiles.largeImage.bytes Mounting.closedTab

theorem largeKernel_consistent : TablesConsistent largeKernel :=
  mounted_consistent AddedFiles.largeImage_wellFormed (fun _ _ => rfl) rfl (by decide)
    Mounting.closedTab

/-- Removing the file of the large image. -/
theorem fileRemove_exact_large : fileExists largeKernel (AddedFiles.nameOf 97) = .ok true ∧
    ∃ k', fileRemove largeKernel (AddedFiles.nameOf 97) = .ok (0, k') ∧
      RemovesExactly largeKernel (AddedFiles.nameOf 97) 0 k' := by
  have hexists : fileExists largeKernel (AddedFiles.nameOf 97) = .ok true := by decide +kernel
  obtain ⟨ret, k', hremove, hexact⟩ :=
    fileRemove_exact largeKernel_consistent (AddedFiles.nameOf 97)
  have hret : ret = 0 := hexact.ret_eq.mpr hexists
  subst hret
  exact ⟨hexists, k', hremove, hexact⟩

end RathalOS.FileRemoval
