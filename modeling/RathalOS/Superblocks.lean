import RathalOS.Bitmaps
import RathalOS.CStrings

/-!
The superblock of common/fs/superblock.h and tools/superblock.c: its packed
layout, the regions superblock_create computes, and the validation done when it
is read back. The uint32_t fields are kept as numbers below 2^32.
-/
namespace RathalOS.Superblocks

open ByteMemory ByteFile Blocks Bitmaps CStrings

structure Superblock where
  signature : Fin 4 → Byte
  versionMajor : Byte
  versionMinor : Byte
  label : Fin 32 → Byte
  blockSize : ℕ
  inodeBitmapStart : ℕ
  inodeBitmapBlockCount : ℕ
  datablockBitmapStart : ℕ
  datablockBitmapBlockCount : ℕ
  inodeStart : ℕ
  inodeCount : ℕ
  inodeBlockCount : ℕ
  datablocksStart : ℕ
  datablockCount : ℕ

namespace Superblock

/-- `sizeof(superblock_t)` of the packed structure. -/
def byteSize : ℕ := 78

def ofMemory (m : Memory) : Superblock where
  signature := fun i => m i
  versionMajor := m 4
  versionMinor := m 5
  label := fun i => m (6 + i)
  blockSize := (read32 m 38).toNat
  inodeBitmapStart := (read32 m 42).toNat
  inodeBitmapBlockCount := (read32 m 46).toNat
  datablockBitmapStart := (read32 m 50).toNat
  datablockBitmapBlockCount := (read32 m 54).toNat
  inodeStart := (read32 m 58).toNat
  inodeCount := (read32 m 62).toNat
  inodeBlockCount := (read32 m 66).toNat
  datablocksStart := (read32 m 70).toNat
  datablockCount := (read32 m 74).toNat

/-- The uint32_t fields in the order of the structure. -/
def words (sb : Superblock) : List ℕ :=
  [sb.blockSize, sb.inodeBitmapStart, sb.inodeBitmapBlockCount, sb.datablockBitmapStart,
    sb.datablockBitmapBlockCount, sb.inodeStart, sb.inodeCount, sb.inodeBlockCount,
    sb.datablocksStart, sb.datablockCount]

/-- The bytes of the structure, followed by zeros. -/
def toMemory (sb : Superblock) : Memory := fun k =>
  if h : k < 4 then sb.signature ⟨k, h⟩
  else if k = 4 then sb.versionMajor
  else if k = 5 then sb.versionMinor
  else if h : k < 38 then sb.label ⟨k - 6, by omega⟩
  else byteAt (sb.words.getD ((k - 38) / 4) 0) ((k - 38) % 4)

theorem ofMemory_congr {m m' : Memory} (h : ∀ k < byteSize, m k = m' k) :
    ofMemory m = ofMemory m' := by
  have hword : ∀ a, a + 4 ≤ byteSize → read32 m a = read32 m' a :=
    fun a ha => read32_congr fun k hk => h (a + k) (by omega)
  have hsize : byteSize = 78 := rfl
  simp only [ofMemory, mk.injEq]
  refine ⟨?_, h 4 (by omega), h 5 (by omega), ?_, ?_⟩
  · funext i
    exact h i (by omega)
  · funext i
    exact h (6 + i) (by omega)
  · rw [hword 38 (by omega), hword 42 (by omega), hword 46 (by omega), hword 50 (by omega),
      hword 54 (by omega), hword 58 (by omega), hword 62 (by omega), hword 66 (by omega),
      hword 70 (by omega), hword 74 (by omega)]
    simp only [and_self]

private theorem read32_word (sb : Superblock) (i : ℕ) (hfits : sb.words.getD i 0 < 2 ^ 32) :
    (read32 sb.toMemory (38 + 4 * i)).toNat = sb.words.getD i 0 := by
  have hword : read32 sb.toMemory (38 + 4 * i) = BitVec.ofNat 32 (sb.words.getD i 0) := by
    apply read32_byteAt
    intro k hk
    have hindex : (38 + 4 * i + k - 38) / 4 = i := by omega
    have hbyte : (38 + 4 * i + k - 38) % 4 = k := by omega
    rw [toMemory, dif_neg (by omega), if_neg (by omega), if_neg (by omega), dif_neg (by omega),
      hindex, hbyte, BitVec.toNat_ofNat, Nat.mod_eq_of_lt hfits]
  rw [hword, BitVec.toNat_ofNat, Nat.mod_eq_of_lt hfits]

/-- A superblock whose fields fit their types is recovered from its bytes. -/
theorem ofMemory_toMemory (sb : Superblock) (hfits : ∀ w ∈ sb.words, w < 2 ^ 32) :
    ofMemory sb.toMemory = sb := by
  have hword : ∀ i < 10, (read32 sb.toMemory (38 + 4 * i)).toNat = sb.words.getD i 0 := by
    intro i hi
    apply read32_word
    have hlen : i < sb.words.length := by simpa [words] using hi
    rw [List.getD_eq_getElem?_getD, List.getElem?_eq_getElem hlen, Option.getD_some]
    exact hfits _ (List.getElem_mem hlen)
  have hsignature : (fun i : Fin 4 => sb.toMemory i) = sb.signature := by
    funext i
    simp [toMemory, i.isLt]
  have hlabel : (fun i : Fin 32 => sb.toMemory (6 + i)) = sb.label := by
    funext i
    have hi := i.isLt
    simp only [toMemory]
    rw [dif_neg (by omega), if_neg (by omega), if_neg (by omega), dif_pos (by omega)]
    congr 1
    apply Fin.ext
    simp
  have hmajor : sb.toMemory 4 = sb.versionMajor := rfl
  have hminor : sb.toMemory 5 = sb.versionMinor := rfl
  have h0 := hword 0 (by omega)
  have h1 := hword 1 (by omega)
  have h2 := hword 2 (by omega)
  have h3 := hword 3 (by omega)
  have h4 := hword 4 (by omega)
  have h5 := hword 5 (by omega)
  have h6 := hword 6 (by omega)
  have h7 := hword 7 (by omega)
  have h8 := hword 8 (by omega)
  have h9 := hword 9 (by omega)
  simp only [ofMemory, hsignature, hlabel, hmajor, hminor]
  simp only [Nat.mul_zero, Nat.mul_one, Nat.reduceMul, Nat.reduceAdd] at h0 h1 h2 h3 h4 h5
  simp only [Nat.reduceMul, Nat.reduceAdd] at h6 h7 h8 h9
  rw [h0, h1, h2, h3, h4, h5, h6, h7, h8, h9]
  rfl

end Superblock

def FS_SIGNATURE : Memory := fun k => [0x42#8, 0x46#8, 0x53#8].getD k 0

def VERSION_MAJOR : Byte := 1
def VERSION_MINOR : Byte := 0

/-- `sizeof(inode_t)`. -/
def inodeSize : ℕ := 64

def superblockCreate (label : Memory) (blockSize inodeCount blockCount : ℕ) :
    Except Fault Superblock :=
  if 0 < blockSize ∧ 0 < blockCount ∧ 0 < inodeCount then
    let inodeBitmapBlockCount := roundUp ((intOfUint inodeCount).tdiv 8) blockSize
    let datablockBitmapStart := uint (1 + inodeBitmapBlockCount)
    let datablockBitmapBlockCount := roundUp ((intOfUint blockCount).tdiv 8) blockSize
    let inodeStart := uint (datablockBitmapStart + datablockBitmapBlockCount)
    let inodesPerBlock := blockSize / inodeSize
    let inodesBlockCount := roundUp (intOfUint inodeCount) inodesPerBlock
    .ok {
      signature := fun i => strncpy (fun _ => 0) FS_SIGNATURE 3 i
      versionMajor := VERSION_MAJOR
      versionMinor := VERSION_MINOR
      label := fun i => strncpy (fun _ => 0) label 31 i
      blockSize := blockSize
      inodeBitmapStart := 1
      inodeBitmapBlockCount := inodeBitmapBlockCount
      datablockBitmapStart := datablockBitmapStart
      datablockBitmapBlockCount := datablockBitmapBlockCount
      inodeStart := inodeStart
      inodeCount := inodeCount
      inodeBlockCount := roundUp (uint (inodeCount * inodeSize)) blockSize
      datablocksStart := uint (inodeStart + inodesBlockCount)
      datablockCount := blockCount
    }
  else .error .assertion

/-- The checks superblock_read makes on the bytes it has read. -/
def superblockValid (m : Memory) : Prop :=
  strncmp m FS_SIGNATURE 3 = 0 ∧ (Superblock.ofMemory m).versionMajor = VERSION_MAJOR ∧
    (Superblock.ofMemory m).blockSize ∈ blockSizes

instance (m : Memory) : Decidable (superblockValid m) := by
  unfold superblockValid
  infer_instance

def superblockRead (fs : File) : Except Fault (Superblock × File) :=
  let (m, fs) := (fs.fseek 0).fread Superblock.byteSize (fun _ => 0)
  if superblockValid m then .ok (Superblock.ofMemory m, fs) else .error .exit

def superblockWrite (sb : Superblock) (fs : File) : Except Fault File :=
  blocksWrite sb.blockSize 0 sb.toMemory sb.blockSize fs

theorem superblockValid_congr {m m' : Memory} (h : ∀ k < Superblock.byteSize, m k = m' k) :
    superblockValid m ↔ superblockValid m' := by
  have hcut : cut 3 m = cut 3 m' := cut_congr fun i hi =>
    h i (by simp only [Superblock.byteSize]; omega)
  unfold superblockValid
  rw [Superblock.ofMemory_congr h, strncmp_eq_zero_iff, strncmp_eq_zero_iff, hcut]

/-- Reading depends on the first bytes of the image only. -/
theorem head_read (fs : File) : ∀ k < Superblock.byteSize,
    ((fs.fseek 0).fread Superblock.byteSize (fun _ => 0)).1 k = fs.bytes k := by
  intro k hk
  rw [File.fseek_of_lt fs (by omega), File.fread_fst_zero, if_pos hk]
  simp

theorem superblockRead_spec (fs : File) (h : superblockValid fs.bytes) :
    ∃ p, superblockRead fs = .ok (Superblock.ofMemory fs.bytes, fs.movedTo p) := by
  have hsame := head_read fs
  refine ⟨0 + min Superblock.byteSize (fs.size - 0), ?_⟩
  rw [superblockRead]
  simp only
  rw [if_pos ((superblockValid_congr hsame).mpr h), Superblock.ofMemory_congr hsame,
    File.fseek_of_lt fs (by omega)]
  rfl

/-- An image that is not signed is refused. -/
theorem superblockRead_invalid (fs : File) (h : ¬ superblockValid fs.bytes) :
    superblockRead fs = .error .exit := by
  rw [superblockRead]
  simp only
  rw [if_neg (mt (superblockValid_congr (head_read fs)).mp h)]

theorem superblockCreate_blockSize {label : Memory} {bs ic dc : ℕ} {sb : Superblock}
    (h : superblockCreate label bs ic dc = .ok sb) : sb.blockSize = bs := by
  unfold superblockCreate at h
  split at h
  · cases h
    rfl
  · cases h

end RathalOS.Superblocks
