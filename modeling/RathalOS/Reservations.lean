import RathalOS.Images
import RathalOS.AddFile

/-!
The reservations of add_file. The copying loops are written out once more with a
log, oldest entry first, of every index bitmap_reserve_first_available_bit
returned and of the place whose pointer receives it. Leaving the log out gives
back the loops of add_file, so what the log shows is what add_file did.
-/
namespace RathalOS.Reservations

open ByteMemory ByteFile Blocks Bitmaps CStrings Superblocks Inodes FileAccess Images AddFile

/-- A call of bitmap_reserve_first_available_bit: what it returned, and the place
of the pointer it was called for. -/
structure Reservation where
  place : Place
  index : ℤ
  deriving DecidableEq

abbrev Log := List Reservation

/-- `directLoop` with a log. -/
def directLoopLog (stale : Memory) (sb : Superblock) :
    List (Fin 4) → Inode → CopyState → Log → Except Fault (Inode × CopyState × Log)
  | [], inode, s, log => .ok (inode, s, log)
  | i :: rest, inode, s, log =>
    if s.more then do
      let (blk, s) ← allocBlockAndCopy stale sb s
      directLoopLog stale sb rest
        { inode with directPtr := Function.update inode.directPtr i (BitVec.ofInt 16 blk) } s
        (log ++ [⟨.direct i, blk⟩])
    else .ok (inode, s, log)

/-- `entryLoop` with a log, for the entries of the indirect block i. -/
def entryLoopLog (stale : Memory) (sb : Superblock) (i : ℕ) :
    ℕ → ℕ → (ℕ → BitVec 16) → CopyState → Log →
      Except Fault ((ℕ → BitVec 16) × CopyState × Log)
  | _, 0, indirectPtr, s, log => .ok (indirectPtr, s, log)
  | j, n + 1, indirectPtr, s, log =>
    if s.more then do
      let (blk, s) ← allocBlockAndCopy stale sb s
      entryLoopLog stale sb i (j + 1) n
        (Function.update indirectPtr j (BitVec.ofInt 16 blk)) s (log ++ [⟨.entry i j, blk⟩])
    else .ok (indirectPtr, s, log)

/-- `indirectLoop` with a log. -/
def indirectLoopLog (stale : Memory) (sb : Superblock) :
    List (Fin 9) → Inode → CopyState → Log → Except Fault (Inode × CopyState × Log)
  | [], inode, s, log => .ok (inode, s, log)
  | i :: rest, inode, s, log =>
    if s.more then do
      let bs := sb.blockSize
      let pointersPerBlock := bs / 2
      let (datablock, datablockBitmap) ← bitmapReserveFirstAvailableBit s.datablockBitmap
      let s := { s with
        datablockBitmap := datablockBitmap
        freeDatablocks := s.freeDatablocks - 1 }
      let (indirectPtr, s, log) ← entryLoopLog stale sb i 0 pointersPerBlock (fun _ => 0) s
        (log ++ [⟨.indirect i, datablock⟩])
      let fs ← blocksWrite bs (uintOfInt (sb.datablocksStart + datablock))
        (pointerBytes indirectPtr) bs s.fs
      indirectLoopLog stale sb rest
        { inode with
          indirectPtr := Function.update inode.indirectPtr i (BitVec.ofInt 16 datablock) }
        { s with fs := fs } log
    else .ok (inode, s, log)

/-- `addFile` with the log of its reservations, from where it has read the superblock. -/
def addFileLogIn (stale : Memory) (sb : Superblock) (f : File) (filename : Memory)
    (fileSize : ℕ) (fs : File) : Except Fault (AddOutcome × File × Log) := do
  let bs := sb.blockSize
  let (inodeBitmap, fs) ← bitmapRead sb.inodeBitmapStart sb.inodeCount bs fs
  let (datablockBitmap, fs) ← bitmapRead sb.datablockBitmapStart sb.datablockCount bs fs
  let (itab, fs) ← inodeTableRead sb.inodeCount sb.inodeStart bs fs
  let found ← fsGetFileInode filename itab
  if found ≠ none then .ok (.alreadyExists, fs, [])
  else do
    let (reserved, itab, inodeBitmap) ← inodeReserveFirstAvailable itab inodeBitmap
    match reserved with
    | none => .ok (.noInode, fs, [])
    | some i => do
      let inode ← inodeGet itab i
      let inode := { inode.setName filename with size := BitVec.ofNat 32 fileSize }
      let freeDatablocks ← bitmapGetFreeBits datablockBitmap
      let s : CopyState := {
        datablockBitmap := datablockBitmap
        dataLeft := intOfUint fileSize
        freeDatablocks := intOfUint freeDatablocks
        f := f
        fs := fs }
      let (inode, s, log) ← directLoopLog stale sb (List.finRange 4) inode s []
      let (inode, s, log) ← indirectLoopLog stale sb (List.finRange 9) inode s log
      if 0 < s.dataLeft then .ok (.notEnoughBlocks, s.fs, log)
      else do
        let fs ← writeMetadata sb inodeBitmap s.datablockBitmap (inodePut itab i inode) s.fs
        .ok (.added, fs, log)

/-- `addFile` with the log of its reservations. -/
def addFileLog (stale : Memory) (f : File) (filename : Memory) (fileSize : ℕ) (fs : File) :
    Except Fault (AddOutcome × File × Log) := do
  let (sb, fs) ← superblockRead fs
  addFileLogIn stale sb f filename fileSize fs

section Erasure

variable (stale : Memory) (sb : Superblock)

/-- Leave out the log. -/
def erase {α β : Type} (r : α × β × Log) : α × β := (r.1, r.2.1)

theorem directLoopLog_erase (rest : List (Fin 4)) (inode : Inode) (s : CopyState) (log : Log) :
    (directLoopLog stale sb rest inode s log).map erase = directLoop stale sb rest inode s := by
  induction rest generalizing inode s log with
  | nil => rfl
  | cons i rest ih =>
    rw [directLoopLog, directLoop]
    split
    · exact map_bind_eq fun r => ih _ _ _
    · rfl

theorem entryLoopLog_erase (i j n : ℕ) (ptrs : ℕ → BitVec 16) (s : CopyState) (log : Log) :
    (entryLoopLog stale sb i j n ptrs s log).map erase = entryLoop stale sb j n ptrs s := by
  induction n generalizing j ptrs s log with
  | zero => rfl
  | succ n ih =>
    rw [entryLoopLog, entryLoop]
    split
    · exact map_bind_eq fun r => ih _ _ _ _
    · rfl

theorem indirectLoopLog_erase (rest : List (Fin 9)) (inode : Inode) (s : CopyState) (log : Log) :
    (indirectLoopLog stale sb rest inode s log).map erase =
      indirectLoop stale sb rest inode s := by
  induction rest generalizing inode s log with
  | nil => rfl
  | cons i rest ih =>
    rw [indirectLoopLog, indirectLoop]
    split
    · refine map_bind_eq fun r => ?_
      exact map_bind_of_map (entryLoopLog_erase stale sb i 0 (sb.blockSize / 2) _ _ _)
        fun r => map_bind_eq fun fs => ih _ _ _
    · rfl

/-- Without its log, `addFileLog` is add_file. -/
theorem addFileLog_erase (f : File) (filename : Memory) (n : ℕ) (fs : File) :
    (addFileLog stale f filename n fs).map erase = addFile stale f filename n fs := by
  refine map_bind_eq fun r₁ => map_bind_eq fun r₂ => map_bind_eq fun r₃ => map_bind_eq fun r₄ =>
    map_bind_eq fun found => ?_
  dsimp only
  split
  · rfl
  · refine map_bind_eq fun r => ?_
    obtain ⟨reserved, itab, inodeBitmap⟩ := r
    cases reserved with
    | none => rfl
    | some i =>
      refine map_bind_eq fun inode => map_bind_eq fun freeDatablocks => ?_
      refine map_bind_of_map (directLoopLog_erase stale _ _ _ _ _) fun r => ?_
      refine map_bind_of_map (indirectLoopLog_erase stale _ _ _ _ _) fun r => ?_
      change Except.map erase (if 0 < r.2.1.dataLeft then _ else _) =
        if 0 < r.2.1.dataLeft then _ else _
      split
      · rfl
      · exact map_bind_eq fun fs => rfl

theorem addFile_of_log {stale : Memory} {f : File} {filename : Memory} {n : ℕ} {fs fs' : File}
    {outcome : AddOutcome} {log : Log}
    (h : addFileLog stale f filename n fs = .ok (outcome, fs', log)) :
    addFile stale f filename n fs = .ok (outcome, fs') := by
  rw [← addFileLog_erase, h]
  rfl

/-- Every call of add_file has a log. -/
theorem exists_log {stale : Memory} {f : File} {filename : Memory} {n : ℕ} {fs fs' : File}
    {outcome : AddOutcome} (h : addFile stale f filename n fs = .ok (outcome, fs')) :
    ∃ log, addFileLog stale f filename n fs = .ok (outcome, fs', log) := by
  rw [← addFileLog_erase] at h
  cases hrun : addFileLog stale f filename n fs with
  | error e =>
    rw [hrun] at h
    cases h
  | ok r =>
    rw [hrun] at h
    cases h
    exact ⟨r.2.2, rfl⟩

end Erasure

end RathalOS.Reservations
