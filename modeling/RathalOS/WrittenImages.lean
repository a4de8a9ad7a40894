import RathalOS.Reservations
import RathalOS.DeleteFile
import RathalOS.TornWrites

/-!
The images between the writes of add_file and delete_file. The tools are written
out once more with a list, oldest first, of the images that the calls of
blocks_write leave one after another; the list starts with the image that was
opened. Leaving the list out gives back the tools, so a tool that is stopped has
taken its image somewhere along this list.
-/
namespace RathalOS.WrittenImages

open ByteMemory ByteFile Blocks Bitmaps CStrings Superblocks Inodes FileAccess AddFile DeleteFile

/-- `directLoop` with the images written. -/
def directLoopImages (stale : Memory) (sb : Superblock) :
    List (Fin 4) → Inode → CopyState → List File → Except Fault (Inode × CopyState × List File)
  | [], inode, s, images => .ok (inode, s, images)
  | i :: rest, inode, s, images =>
    if s.more then do
      let (blk, s) ← allocBlockAndCopy stale sb s
      directLoopImages stale sb rest
        { inode with directPtr := Function.update inode.directPtr i (BitVec.ofInt 16 blk) } s
        (images ++ [s.fs])
    else .ok (inode, s, images)

/-- `entryLoop` with the images written. -/
def entryLoopImages (stale : Memory) (sb : Superblock) :
    ℕ → ℕ → (ℕ → BitVec 16) → CopyState → List File →
      Except Fault ((ℕ → BitVec 16) × CopyState × List File)
  | _, 0, indirectPtr, s, images => .ok (indirectPtr, s, images)
  | j, n + 1, indirectPtr, s, images =>
    if s.more then do
      let (blk, s) ← allocBlockAndCopy stale sb s
      entryLoopImages stale sb (j + 1) n
        (Function.update indirectPtr j (BitVec.ofInt 16 blk)) s (images ++ [s.fs])
    else .ok (indirectPtr, s, images)

/-- `indirectLoop` with the images written. -/
def indirectLoopImages (stale : Memory) (sb : Superblock) :
    List (Fin 9) → Inode → CopyState → List File → Except Fault (Inode × CopyState × List File)
  | [], inode, s, images => .ok (inode, s, images)
  | i :: rest, inode, s, images =>
    if s.more then do
      let bs := sb.blockSize
      let pointersPerBlock := bs / 2
      let (datablock, datablockBitmap) ← bitmapReserveFirstAvailableBit s.datablockBitmap
      let s := { s with
        datablockBitmap := datablockBitmap
        freeDatablocks := s.freeDatablocks - 1 }
      let (indirectPtr, s, images) ←
        entryLoopImages stale sb 0 pointersPerBlock (fun _ => 0) s images
      let fs ← blocksWrite bs (uintOfInt (sb.datablocksStart + datablock))
        (pointerBytes indirectPtr) bs s.fs
      indirectLoopImages stale sb rest
        { inode with
          indirectPtr := Function.update inode.indirectPtr i (BitVec.ofInt 16 datablock) }
        { s with fs := fs } (images ++ [fs])
    else .ok (inode, s, images)

/-- `writeMetadata` with the images written. -/
def writeMetadataImages (sb : Superblock) (inodeBitmap datablockBitmap : Bitmap)
    (itab : InodeTable) (fs : File) (images : List File) : Except Fault (File × List File) := do
  let fs₁ ← bitmapWrite inodeBitmap sb.inodeBitmapStart sb.blockSize fs
  let fs₂ ← bitmapWrite datablockBitmap sb.datablockBitmapStart sb.blockSize fs₁
  let fs₃ ← inodeTableWrite itab sb.inodeStart sb.blockSize fs₂
  .ok (fs₃, images ++ [fs₁, fs₂, fs₃])

/-- `addFile` with the images written. -/
def addFileImages (stale : Memory) (f : File) (filename : Memory) (fileSize : ℕ) (fs : File) :
    Except Fault (AddOutcome × File × List File) := do
  let (sb, fs) ← superblockRead fs
  let bs := sb.blockSize
  let (inodeBitmap, fs) ← bitmapRead sb.inodeBitmapStart sb.inodeCount bs fs
  let (datablockBitmap, fs) ← bitmapRead sb.datablockBitmapStart sb.datablockCount bs fs
  let (itab, fs) ← inodeTableRead sb.inodeCount sb.inodeStart bs fs
  let found ← fsGetFileInode filename itab
  if found ≠ none then .ok (.alreadyExists, fs, [fs])
  else do
    let (reserved, itab, inodeBitmap) ← inodeReserveFirstAvailable itab inodeBitmap
    match reserved with
    | none => .ok (.noInode, fs, [fs])
    | some i => do
      let inode ← inodeGet itab i
      let inode := { inode.setName filename with size := BitVec.ofNat 32 fileSize }
      let freeDatablocks ← bitmapGetFreeBits datablockBitmap
      let s : CopyState := {
        datablockBitmap := datablockBitmap
        dataLeft := intOfUint fileSize
        freeDatablocks := intOfUint freeDatablocks
        f := f
        fs := fs }
      let (inode, s, images) ← directLoopImages stale sb (List.finRange 4) inode s [fs]
      let (inode, s, images) ← indirectLoopImages stale sb (List.finRange 9) inode s images
      if 0 < s.dataLeft then .ok (.notEnoughBlocks, s.fs, images)
      else do
        let (fs, images) ← writeMetadataImages sb inodeBitmap s.datablockBitmap
          (inodePut itab i inode) s.fs images
        .ok (.added, fs, images)

/-- `deleteFile` with the images written. -/
def deleteFileImages (stale : Memory) (filename : Memory) (fs : File) :
    Except Fault (DeleteResult × List File) := do
  let (sb, fs) ← superblockRead fs
  let bs := sb.blockSize
  let (inodeBitmap, fs) ← bitmapRead sb.inodeBitmapStart sb.inodeCount bs fs
  let (datablockBitmap, fs) ← bitmapRead sb.datablockBitmapStart sb.datablockCount bs fs
  let (itab, fs) ← inodeTableRead sb.inodeCount sb.inodeStart bs fs
  let found ← fsGetFileInode filename itab
  match found with
  | none => .ok ({ outcome := .notPresent, fs := fs, indexed := [] }, [fs])
  | some i => do
    let inode ← inodeGet itab i
    let inodeBitmap ← bitmapSet inodeBitmap inode.number.toNat false
    let s ← releaseBlocks (List.ofFn fun k => (inode.directPtr k).toNat)
      { datablockBitmap := datablockBitmap, indexed := [] }
    let (s, fs) ← releaseIndirect stale bs inode (List.finRange 9) s fs
    let (fs, images) ← writeMetadataImages sb inodeBitmap s.datablockBitmap
      (inodePut itab i Inode.zero) fs [fs]
    .ok ({ outcome := .deleted, fs := fs, indexed := s.indexed }, images)

section Erasure

variable (stale : Memory) (sb : Superblock)

/-- Leave out the images. -/
def unlisted {α β : Type} (r : α × β × List File) : α × β := (r.1, r.2.1)

theorem directLoopImages_erase (rest : List (Fin 4)) (inode : Inode) (s : CopyState)
    (images : List File) :
    (directLoopImages stale sb rest inode s images).map unlisted =
      directLoop stale sb rest inode s := by
  induction rest generalizing inode s images with
  | nil => rfl
  | cons i rest ih =>
    rw [directLoopImages, directLoop]
    split
    · exact map_bind_eq fun r => ih _ _ _
    · rfl

theorem entryLoopImages_erase (j n : ℕ) (ptrs : ℕ → BitVec 16) (s : CopyState)
    (images : List File) :
    (entryLoopImages stale sb j n ptrs s images).map unlisted = entryLoop stale sb j n ptrs s := by
  induction n generalizing j ptrs s images with
  | zero => rfl
  | succ n ih =>
    rw [entryLoopImages, entryLoop]
    split
    · exact map_bind_eq fun r => ih _ _ _ _
    · rfl

theorem indirectLoopImages_erase (rest : List (Fin 9)) (inode : Inode) (s : CopyState)
    (images : List File) :
    (indirectLoopImages stale sb rest inode s images).map unlisted =
      indirectLoop stale sb rest inode s := by
  induction rest generalizing inode s images with
  | nil => rfl
  | cons i rest ih =>
    rw [indirectLoopImages, indirectLoop]
    split
    · refine map_bind_eq fun r => ?_
      exact map_bind_of_map (entryLoopImages_erase stale sb 0 (sb.blockSize / 2) _ _ _)
        fun r => map_bind_eq fun fs => ih _ _ _
    · rfl

theorem writeMetadataImages_erase (ib db : Bitmap) (itab : InodeTable) (fs : File)
    (images : List File) :
    (writeMetadataImages sb ib db itab fs images).map Prod.fst =
      writeMetadata sb ib db itab fs := by
  refine map_bind_eq fun fs₁ => map_bind_eq fun fs₂ => ?_
  cases inodeTableWrite itab sb.inodeStart sb.blockSize fs₂ <;> rfl

/-- Without its images, `addFileImages` is add_file. -/
theorem addFileImages_erase (f : File) (filename : Memory) (n : ℕ) (fs : File) :
    (addFileImages stale f filename n fs).map unlisted = addFile stale f filename n fs := by
  refine map_bind_eq fun r₁ => map_bind_eq fun r₂ => map_bind_eq fun r₃ => map_bind_eq fun r₄ =>
    map_bind_eq fun found => ?_
  dsimp only
  split
  · rfl
  · refine map_bind_eq fun r => ?_
    obtain ⟨reserved, itab, inodeBitmap⟩ := r
    cases reserved with
    | none => rfl
    | some i =>
      refine map_bind_eq fun inode => map_bind_eq fun freeDatablocks => ?_
      refine map_bind_of_map (directLoopImages_erase stale _ _ _ _ _) fun r => ?_
      refine map_bind_of_map (indirectLoopImages_erase stale _ _ _ _ _) fun r => ?_
      change Except.map unlisted (if 0 < r.2.1.dataLeft then _ else _) =
        if 0 < r.2.1.dataLeft then _ else _
      split
      · rfl
      · exact map_bind_of_map (writeMetadataImages_erase _ _ _ _ _ _) fun r => rfl

/-- Without its images, `deleteFileImages` is delete_file. -/
theorem deleteFileImages_erase (filename : Memory) (fs : File) :
    (deleteFileImages stale filename fs).map Prod.fst = deleteFile stale filename fs := by
  refine map_bind_eq fun r₁ => map_bind_eq fun r₂ => map_bind_eq fun r₃ => map_bind_eq fun r₄ =>
    map_bind_eq fun found => ?_
  cases found with
  | none => rfl
  | some i =>
    refine map_bind_eq fun inode => map_bind_eq fun ib => map_bind_eq fun s =>
      map_bind_eq fun r => ?_
    exact map_bind_of_map (writeMetadataImages_erase _ _ _ _ _ _) fun r => rfl

end Erasure

section Calls

variable {stale filename : Memory} {f fs fs' : File} {n : ℕ} {images : List File}

theorem addFile_of_images {outcome : AddOutcome}
    (h : addFileImages stale f filename n fs = .ok (outcome, fs', images)) :
    addFile stale f filename n fs = .ok (outcome, fs') := by
  rw [← addFileImages_erase, h]
  rfl

/-- Every call of add_file has its images. -/
theorem exists_addFileImages {outcome : AddOutcome}
    (h : addFile stale f filename n fs = .ok (outcome, fs')) :
    ∃ images, addFileImages stale f filename n fs = .ok (outcome, fs', images) := by
  rw [← addFileImages_erase] at h
  cases hrun : addFileImages stale f filename n fs with
  | error e =>
    rw [hrun] at h
    cases h
  | ok r =>
    rw [hrun] at h
    cases h
    exact ⟨r.2.2, rfl⟩

theorem deleteFile_of_images {r : DeleteResult}
    (h : deleteFileImages stale filename fs = .ok (r, images)) :
    deleteFile stale filename fs = .ok r := by
  rw [← deleteFileImages_erase, h]
  rfl

end Calls

end RathalOS.WrittenImages
