import RathalOS.AddFile

/-!
Deleting a file from an image, tools/fs_del.c. The indirect blocks are read back
with block_read at their number relative to the data region, not to the image.
The loops also record at which indices the data bitmap was accessed.
-/
namespace RathalOS.DeleteFile

open ByteMemory ByteFile Blocks Bitmaps CStrings Superblocks Inodes FileAccess AddFile

/-- The data bitmap, and the indices handed to bitmap_get and bitmap_set so far. -/
structure ReleaseState where
  datablockBitmap : Bitmap
  indexed : List ℕ

/-- `if (idx > 0 && bitmap_get(bitmap, idx)) bitmap_set(bitmap, idx, 0)`. -/
def releaseBlock (s : ReleaseState) (idx : ℕ) : Except Fault ReleaseState :=
  if 0 < idx then do
    let bit ← bitmapGet s.datablockBitmap idx
    if bit ≠ 0 then do
      let datablockBitmap ← bitmapSet s.datablockBitmap idx false
      .ok { datablockBitmap := datablockBitmap, indexed := s.indexed ++ [idx] }
    else .ok { s with indexed := s.indexed ++ [idx] }
  else .ok s

/-- Release the blocks that an array of pointers lists. -/
def releaseBlocks : List ℕ → ReleaseState → Except Fault ReleaseState
  | [], s => .ok s
  | idx :: rest, s => do
    let s ← releaseBlock s idx
    releaseBlocks rest s

/-- The first n 16-bit words of a memory. -/
def words16 (m : Memory) (n : ℕ) : List ℕ := (List.range n).map fun j => (read16 m (2 * j)).toNat

/-- The loop over the indirect pointers that remain. -/
def releaseIndirect (stale : Memory) (bs : ℕ) (inode : Inode) :
    List (Fin 9) → ReleaseState → File → Except Fault (ReleaseState × File)
  | [], s, fs => .ok (s, fs)
  | i :: rest, s, fs =>
    let indirectBlock := (inode.indirectPtr i).toNat
    if 0 < indirectBlock then do
      let s ← releaseBlock s indirectBlock
      let (contents, fs) ← blockRead bs indirectBlock stale fs
      let s ← releaseBlocks (words16 contents (bs / 2)) s
      releaseIndirect stale bs inode rest s fs
    else releaseIndirect stale bs inode rest s fs

/-- How delete_file ended; it returns true exactly for `deleted`. -/
inductive DeleteOutcome
  | deleted
  | notPresent
  deriving DecidableEq, Repr

/-- The format printed to stderr, whose argument is the file name. -/
def DeleteOutcome.message : DeleteOutcome → Option String
  | .deleted => none
  | .notPresent => some "File \"%s\" not present in the image!\n"

/-- `indexed` lists the indices at which the data bitmap was accessed. -/
structure DeleteResult where
  outcome : DeleteOutcome
  fs : File
  indexed : List ℕ

def deleteFile (stale : Memory) (filename : Memory) (fs : File) : Except Fault DeleteResult := do
  let (sb, fs) ← superblockRead fs
  let bs := sb.blockSize
  let (inodeBitmap, fs) ← bitmapRead sb.inodeBitmapStart sb.inodeCount bs fs
  let (datablockBitmap, fs) ← bitmapRead sb.datablockBitmapStart sb.datablockCount bs fs
  let (itab, fs) ← inodeTableRead sb.inodeCount sb.inodeStart bs fs
  let found ← fsGetFileInode filename itab
  match found with
  | none => .ok { outcome := .notPresent, fs := fs, indexed := [] }
  | some i => do
    let inode ← inodeGet itab i
    let inodeBitmap ← bitmapSet inodeBitmap inode.number.toNat false
    let s ← releaseBlocks (List.ofFn fun k => (inode.directPtr k).toNat)
      { datablockBitmap := datablockBitmap, indexed := [] }
    let (s, fs) ← releaseIndirect stale bs inode (List.finRange 9) s fs
    let fs ← writeMetadata sb inodeBitmap s.datablockBitmap (inodePut itab i Inode.zero) fs
    .ok { outcome := .deleted, fs := fs, indexed := s.indexed }

end RathalOS.DeleteFile
