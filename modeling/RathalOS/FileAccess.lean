import RathalOS.Inodes

/-!
Lookup and reading of tools/fs.c. `stale` stands for whatever an uninitialised
stack buffer holds. The block size is at most 8192 once the superblock has been
validated, so the products of block sizes and pointer counts do not overflow.
-/
namespace RathalOS.FileAccess

open ByteMemory ByteFile Blocks Bitmaps CStrings Superblocks Inodes FirstFit

def fsGetFileInode (filename : Memory) (itab : InodeTable) : Except Fault (Option ℕ) := do
  let (found, _) ← findInode itab (matchesName filename) 0 itab.inodeCount
  .ok found

/-- The number of the data block that holds an offset, or -1. -/
def fsOffsetToBlock (stale : Memory) (offset : ℕ) (inode : Inode) (sb : Superblock) (fs : File) :
    Except Fault (ℤ × File) :=
  let bs := sb.blockSize
  if offset < INODE_DIRECT_PTR_CNT * bs then
    if h : offset / bs < 4 then .ok ((inode.directPtr ⟨offset / bs, h⟩).toNat, fs)
    else .error .undefined
  else
    let pointersPerBlock := bs / 2
    if offset > INODE_DIRECT_PTR_CNT * bs + INODE_INDIRECT_PTR_CNT * pointersPerBlock * bs then
      .ok (-1, fs)
    else
      let offset := offset - INODE_DIRECT_PTR_CNT * bs
      let indirectBlockIdx := offset / (pointersPerBlock * bs)
      if h : indirectBlockIdx < 9 then do
        let indirectBlock := (inode.indirectPtr ⟨indirectBlockIdx, h⟩).toNat
        let (buf, fs) ← blockRead bs (uint (sb.datablocksStart + indirectBlock)) stale fs
        let offset := offset - indirectBlockIdx * (pointersPerBlock * bs)
        .ok ((read16 buf (2 * (offset / bs))).toNat, fs)
      else .error .undefined

/-- The loop `while (bytes_left > 0)` of fs_read. -/
def readLoop (stale : Memory) (inode : Inode) (sb : Superblock)
    (bytesLeft offset destOffset : ℕ) (dest buf : Memory) (fs : File) :
    Except Fault (Memory × File) :=
  if _hleft : 0 < bytesLeft then do
    let (block, fs) ← fsOffsetToBlock stale offset inode sb fs
    let (buf, fs) ← blockRead sb.blockSize (uintOfInt (sb.datablocksStart + block)) buf fs
    let startOffset := offset % sb.blockSize
    let partialCount := sb.blockSize - startOffset
    let n := if partialCount < bytesLeft then partialCount else bytesLeft
    -- n = 0 needs a block size of 0, which block_read has already rejected
    if _hn : 0 < n then
      readLoop stale inode sb (bytesLeft - n) (uint (offset + n)) (destOffset + n)
        (store dest destOffset n (advance buf startOffset)) buf fs
    else .error .undefined
  else .ok (dest, fs)
termination_by bytesLeft
decreasing_by exact Nat.sub_lt _hleft _hn

/-- What fs_read returned; it is true exactly for `done`. -/
inductive ReadOutcome
  | done
  | notFound
  deriving DecidableEq, Repr

/-- The format printed to stderr, whose argument is the file name. -/
def ReadOutcome.message : ReadOutcome → Option String
  | .done => none
  | .notFound => some "File not found (\"%s\")!\n"

def fsRead (stale : Memory) (filename : Memory) (offset count : ℕ) (dest : Memory) (fs : File) :
    Except Fault (ReadOutcome × Memory × File) := do
  let (sb, fs) ← superblockRead fs
  let bs := sb.blockSize
  let (_inodeBitmap, fs) ← bitmapRead sb.inodeBitmapStart sb.inodeCount bs fs
  let (_datablockBitmap, fs) ← bitmapRead sb.datablockBitmapStart sb.datablockCount bs fs
  let (itab, fs) ← inodeTableRead sb.inodeCount sb.inodeStart bs fs
  let found ← fsGetFileInode filename itab
  match found with
  | none => .ok (.notFound, dest, fs)
  | some i => do
    let inode ← inodeGet itab i
    -- bytes_left is an int
    let (dest, fs) ← readLoop stale inode sb (intOfUint count).toNat offset 0 dest stale fs
    .ok (.done, dest, fs)

/-- The first live inode that carries the name. -/
def lookup (filename : Memory) (itab : InodeTable) : Option ℕ :=
  firstFree (fun k => !matchesName filename (itab.inode k)) itab.inodeCount

theorem fsGetFileInode_spec (filename : Memory) {itab : InodeTable}
    (hslots : itab.inodeCount ≤ itab.slots) :
    fsGetFileInode filename itab = .ok (lookup filename itab) := by
  obtain ⟨slotsRead, hfind, -⟩ := findInode_spec itab (matchesName filename) 0 itab.inodeCount
    (by omega)
  rw [fsGetFileInode, hfind]
  rfl

theorem lookup_some {filename : Memory} {itab : InodeTable} {i : ℕ}
    (h : lookup filename itab = some i) :
    i < itab.inodeCount ∧ (itab.inode i).number ≠ 0 ∧
      (itab.inode i).shownName = cut 31 filename ∧
      ∀ k < i, matchesName filename (itab.inode k) = false := by
  obtain ⟨hi, hfound, hleast⟩ := firstFree_some h
  obtain ⟨hlive, hname⟩ := (matchesName_iff _ _).mp (by simpa using hfound)
  exact ⟨hi, hlive, hname, fun k hk => by simpa using hleast k hk⟩

theorem lookup_eq_none_iff {filename : Memory} {itab : InodeTable} :
    lookup filename itab = none ↔
      ∀ i < itab.inodeCount, (itab.inode i).number ≠ 0 →
        (itab.inode i).shownName ≠ cut 31 filename := by
  rw [lookup, firstFree_none_iff]
  constructor
  · intro h i hi hlive hname
    have hmatch := (matchesName_iff filename _).mpr ⟨hlive, hname⟩
    have hno := h i hi
    simp [hmatch] at hno
  · intro h i hi
    cases hmatch : matchesName filename (itab.inode i) with
    | false => rfl
    | true =>
      obtain ⟨hlive, hname⟩ := (matchesName_iff _ _).mp hmatch
      exact absurd hname (h i hi hlive)

section Mapping

/-- Past the direct blocks an offset is split into a table, an entry and a byte. -/
theorem indirect_position {bs q x : ℕ} (hbs : 0 < bs) (h : 4 * bs ≤ x) :
    4 ≤ x / bs ∧ (x - 4 * bs) / (q * bs) = (x / bs - 4) / q ∧
      (x - 4 * bs - (x - 4 * bs) / (q * bs) * (q * bs)) / bs = (x / bs - 4) % q := by
  have hblock : (x - 4 * bs) / bs = x / bs - 4 := by
    rw [Nat.mul_comm, Nat.sub_mul_div]
  have htable : (x - 4 * bs) / (q * bs) = (x / bs - 4) / q := by
    rw [Nat.mul_comm q, ← Nat.div_div_eq_div_mul, hblock]
  refine ⟨(Nat.le_div_iff_mul_le hbs).mpr h, htable, ?_⟩
  rw [htable, ← Nat.mul_assoc, Nat.mul_comm ((x / bs - 4) / q * q), Nat.sub_mul_div, hblock]
  exact Nat.mod_eq_sub_div_mul.symm

/-- The offsets that the pointers of an inode reach. -/
def reach (bs : ℕ) : ℕ := (4 + 9 * (bs / 2)) * bs

theorem reach_eq (bs : ℕ) : 4 * bs + 9 * (bs / 2) * bs = reach bs :=
  (Nat.add_mul 4 (9 * (bs / 2)) bs).symm

theorem table_lt_iff {bs x : ℕ} (hbs : 2 ≤ bs) (hx : 4 * bs ≤ x) :
    (x / bs - 4) / (bs / 2) < 9 ↔ x < reach bs := by
  have hge : 4 ≤ x / bs := (Nat.le_div_iff_mul_le (by omega)).mpr hx
  have hblocks : x / bs < 4 + 9 * (bs / 2) ↔ x < reach bs := Nat.div_lt_iff_lt_mul (by omega)
  rw [Nat.div_lt_iff_lt_mul (by omega), ← hblocks]
  omega

variable {inode : Inode} {sb : Superblock} {x : ℕ}

theorem fsOffsetToBlock_direct (stale : Memory) (fs : File) (h4 : x / sb.blockSize < 4)
    (hx : x < 4 * sb.blockSize) :
    fsOffsetToBlock stale x inode sb fs =
      .ok ((inode.directPtr ⟨x / sb.blockSize, h4⟩).toNat, fs) := by
  simp only [fsOffsetToBlock, INODE_DIRECT_PTR_CNT]
  rw [if_pos hx, dif_pos h4]

theorem fsOffsetToBlock_indirect (stale : Memory) (fs : File) (hbs : 2 ≤ sb.blockSize)
    (hx : 4 * sb.blockSize ≤ x) (h9 : (x / sb.blockSize - 4) / (sb.blockSize / 2) < 9) :
    fsOffsetToBlock stale x inode sb fs = (do
      let (buf, fs) ← blockRead sb.blockSize (uint (sb.datablocksStart +
        (inode.indirectPtr ⟨(x / sb.blockSize - 4) / (sb.blockSize / 2), h9⟩).toNat)) stale fs
      .ok ((read16 buf (2 * ((x / sb.blockSize - 4) % (sb.blockSize / 2)))).toNat, fs)) := by
  obtain ⟨-, htable, hentry⟩ := indirect_position (q := sb.blockSize / 2) (by omega) hx
  have hlimit := (table_lt_iff hbs hx).mp h9
  rw [← reach_eq] at hlimit
  rw [htable] at hentry
  simp only [fsOffsetToBlock, INODE_DIRECT_PTR_CNT, INODE_INDIRECT_PTR_CNT]
  rw [if_neg (by omega), if_neg (by omega)]
  simp only [htable, hentry]
  rw [dif_pos h9]

theorem fsOffsetToBlock_beyond (stale : Memory) (fs : File) (hx : reach sb.blockSize < x) :
    fsOffsetToBlock stale x inode sb fs = .ok (-1, fs) := by
  rw [← reach_eq] at hx
  simp only [fsOffsetToBlock, INODE_DIRECT_PTR_CNT, INODE_INDIRECT_PTR_CNT]
  rw [if_neg (by omega), if_pos (by omega)]

/-- The offset right behind the last one passes the check, and asks for a tenth table. -/
theorem fsOffsetToBlock_reach (stale : Memory) (fs : File) (hbs : 2 ≤ sb.blockSize) :
    fsOffsetToBlock stale (reach sb.blockSize) inode sb fs = .error .undefined := by
  have hlimit := reach_eq sb.blockSize
  have hx : 4 * sb.blockSize ≤ reach sb.blockSize := by omega
  obtain ⟨-, htable, -⟩ := indirect_position (q := sb.blockSize / 2) (by omega) hx
  simp only [fsOffsetToBlock, INODE_DIRECT_PTR_CNT, INODE_INDIRECT_PTR_CNT]
  rw [if_neg (by omega), if_neg (by omega)]
  simp only [htable]
  rw [dif_neg ((table_lt_iff hbs hx).not.mpr (Nat.lt_irrefl _))]

end Mapping

end RathalOS.FileAccess
