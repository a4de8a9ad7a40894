import RathalOS.FileAccess

/-!
Adding a file to an image, tools/fs_add.c. The loops thread a copy state: the
data bitmap, the bytes left, the free blocks left, the host file, of which the
next bytes are read, and the image, to which whole blocks are written.
-/
namespace RathalOS.AddFile

open ByteMemory ByteFile Blocks Bitmaps CStrings Superblocks Inodes FileAccess

/-- The variables the copying loops change; dataLeft is a long and
freeDatablocks an int. -/
structure CopyState where
  datablockBitmap : Bitmap
  dataLeft : ℤ
  freeDatablocks : ℤ
  f : File
  fs : File

/-- Copy a block, or less at the end of the contents, and return its number. -/
def allocBlockAndCopy (stale : Memory) (sb : Superblock) (s : CopyState) :
    Except Fault (ℤ × CopyState) :=
  if 0 ≤ s.dataLeft then do
    let bs := sb.blockSize
    let (blk, datablockBitmap) ← bitmapReserveFirstAvailableBit s.datablockBitmap
    let len := if bs ≤ uintOfInt s.dataLeft then bs else uintOfInt s.dataLeft
    let (buf, f) := s.f.fread len stale
    let fs ← blocksWrite bs (uintOfInt (sb.datablocksStart + blk)) buf len s.fs
    .ok (blk, {
      datablockBitmap := datablockBitmap
      dataLeft := s.dataLeft - len
      freeDatablocks := s.freeDatablocks - 1
      f := f
      fs := fs })
  else .error .assertion

/-- The condition of all three loops. -/
def CopyState.more (s : CopyState) : Prop := 0 < s.freeDatablocks ∧ 0 < s.dataLeft

instance (s : CopyState) : Decidable s.more := by
  unfold CopyState.more
  infer_instance

/-- The loop over the direct pointers that remain. -/
def directLoop (stale : Memory) (sb : Superblock) :
    List (Fin 4) → Inode → CopyState → Except Fault (Inode × CopyState)
  | [], inode, s => .ok (inode, s)
  | i :: rest, inode, s =>
    if s.more then do
      let (blk, s) ← allocBlockAndCopy stale sb s
      directLoop stale sb rest
        { inode with directPtr := Function.update inode.directPtr i (BitVec.ofInt 16 blk) } s
    else .ok (inode, s)

/-- The loop over the entries of one indirect block, at entry j with n left. -/
def entryLoop (stale : Memory) (sb : Superblock) :
    ℕ → ℕ → (ℕ → BitVec 16) → CopyState → Except Fault ((ℕ → BitVec 16) × CopyState)
  | _, 0, indirectPtr, s => .ok (indirectPtr, s)
  | j, n + 1, indirectPtr, s =>
    if s.more then do
      let (blk, s) ← allocBlockAndCopy stale sb s
      entryLoop stale sb (j + 1) n (Function.update indirectPtr j (BitVec.ofInt 16 blk)) s
    else .ok (indirectPtr, s)

/-- The bytes of an array of 16-bit pointers. -/
def pointerBytes (ptrs : ℕ → BitVec 16) : Memory := fun k => byteAt (ptrs (k / 2)).toNat (k % 2)

/-- The loop over the indirect pointers that remain. -/
def indirectLoop (stale : Memory) (sb : Superblock) :
    List (Fin 9) → Inode → CopyState → Except Fault (Inode × CopyState)
  | [], inode, s => .ok (inode, s)
  | i :: rest, inode, s =>
    if s.more then do
      let bs := sb.blockSize
      let pointersPerBlock := bs / 2
      let (datablock, datablockBitmap) ← bitmapReserveFirstAvailableBit s.datablockBitmap
      let s := { s with
        datablockBitmap := datablockBitmap
        freeDatablocks := s.freeDatablocks - 1 }
      let (indirectPtr, s) ← entryLoop stale sb 0 pointersPerBlock (fun _ => 0) s
      let fs ← blocksWrite bs (uintOfInt (sb.datablocksStart + datablock))
        (pointerBytes indirectPtr) bs s.fs
      indirectLoop stale sb rest
        { inode with
          indirectPtr := Function.update inode.indirectPtr i (BitVec.ofInt 16 datablock) }
        { s with fs := fs }
    else .ok (inode, s)

/-- Write back the two bitmaps and the inode table. -/
def writeMetadata (sb : Superblock) (inodeBitmap datablockBitmap : Bitmap) (itab : InodeTable)
    (fs : File) : Except Fault File := do
  let fs ← bitmapWrite inodeBitmap sb.inodeBitmapStart sb.blockSize fs
  let fs ← bitmapWrite datablockBitmap sb.datablockBitmapStart sb.blockSize fs
  inodeTableWrite itab sb.inodeStart sb.blockSize fs

/-- How add_file ended; it returns true exactly for `added`. -/
inductive AddOutcome
  | added
  | alreadyExists
  | noInode
  | notEnoughBlocks
  deriving DecidableEq, Repr

/-- The format printed to stderr, whose argument is the file name. -/
def AddOutcome.message : AddOutcome → Option String
  | .added => none
  | .alreadyExists => some "Not adding \"%s\": file already exists!\n"
  | .noInode => some "Failed adding \"%s\": no more available inode!\n"
  | .notEnoughBlocks => some "Failed adding \"%s\": not enough data blocks available!\n"

def addFile (stale : Memory) (f : File) (filename : Memory) (fileSize : ℕ) (fs : File) :
    Except Fault (AddOutcome × File) := do
  let (sb, fs) ← superblockRead fs
  let bs := sb.blockSize
  let (inodeBitmap, fs) ← bitmapRead sb.inodeBitmapStart sb.inodeCount bs fs
  let (datablockBitmap, fs) ← bitmapRead sb.datablockBitmapStart sb.datablockCount bs fs
  let (itab, fs) ← inodeTableRead sb.inodeCount sb.inodeStart bs fs
  let found ← fsGetFileInode filename itab
  if found ≠ none then .ok (.alreadyExists, fs)
  else do
    let (reserved, itab, inodeBitmap) ← inodeReserveFirstAvailable itab inodeBitmap
    match reserved with
    | none => .ok (.noInode, fs)
    | some i => do
      let inode ← inodeGet itab i
      let inode := { inode.setName filename with size := BitVec.ofNat 32 fileSize }
      let freeDatablocks ← bitmapGetFreeBits datablockBitmap
      let s : CopyState := {
        datablockBitmap := datablockBitmap
        dataLeft := intOfUint fileSize
        freeDatablocks := intOfUint freeDatablocks
        f := f
        fs := fs }
      let (inode, s) ← directLoop stale sb (List.finRange 4) inode s
      let (inode, s) ← indirectLoop stale sb (List.finRange 9) inode s
      if 0 < s.dataLeft then .ok (.notEnoughBlocks, s.fs)
      else do
        let fs ← writeMetadata sb inodeBitmap s.datablockBitmap (inodePut itab i inode) s.fs
        .ok (.added, fs)

end RathalOS.AddFile
