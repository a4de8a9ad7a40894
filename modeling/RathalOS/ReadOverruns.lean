import RathalOS.Cursors
import RathalOS.FileRemoval

/-!
What file_read, kernel/fs/fs.c, writes behind the bytes it was asked for. Its loop copies
whole sectors, one more than fit the count, and after the loop another sector follows, so that
every read of an open file stores bytes behind the count. The number of the last sector is
computed from two variables, of which one is set only when the loop has reached an indirect
block. Here file_read also returns its calls of ide_read_sector.
-/
namespace RathalOS.ReadOverruns

open ByteMemory Superblocks Inodes FileAccess Images KernelFiles Mounting KernelReads Cursors

/-- A call of ide_read_sector: where in the buffer it stores a sector, and the number of the
sector, if it is computed from variables that were set. -/
structure Access where
  position : ℕ
  sector : Option ℤ

/-- The access to a block of the file, if one is made. -/
def blockAccess (dataStart : ℤ) (inode : Inode) (s : ReadState) : List Access :=
  (kernelSector dataStart inode s.block).toList.map fun sector => ⟨s.moved, some sector⟩

/-- The loop with its accesses. -/
def readBlocksLog (disk : Memory) (dataStart : ℤ) (inode : Inode) :
    ℕ → ReadState → ReadState × List Access
  | 0, s => (s, [])
  | n + 1, s =>
    let (s', accesses) := readBlocksLog disk dataStart inode n (readBlock disk dataStart inode s)
    (s', blockAccess dataStart inode s ++ accesses)

/-- The number of the sector read after the loop, if it is computed from variables that were
set. -/
def lastSector (dataStart : ℤ) (s : ReadState) : Option ℤ := do
  let dataBlock ← s.dataBlock
  let adressInIndirectBlock ← s.adressInIndirectBlock
  some (dataStart + (dataBlock + adressInIndirectBlock : ℕ))

/-- file_read, with its accesses. -/
def fileReadLog (k : Kernel) (disk : Memory) (stale : ℕ) (fd : ℤ) (buf : Memory) (count : ℕ) :
    Except Fault (ℤ × Memory × List Access) := do
  let i ← k.descriptor fd
  if (k.fileDescriptorTab i).status = 0 then .ok (-1, buf, [])
  else
    match (k.fileDescriptorTab i).inode with
    | none => .error .undefined
    | some slot => do
      let inode ← inodeGet k.inodeTable slot
      let dataStart := intOfUint k.superblock.datablocksStart
      let (s, accesses) :=
        readBlocksLog disk dataStart inode (count / SECTOR_SIZE + 1) ⟨0, none, none, buf, 0⟩
      let last := s.dataBlock.getD stale + s.adressInIndirectBlock.getD stale
      .ok (intOfUint count, ideReadSector disk (dataStart + last) s.buf s.moved,
        accesses ++ [⟨s.moved, lastSector dataStart s⟩])

/-- file_read stores nothing behind the count, and computes every sector number from variables
that were set. -/
def StaysWithin (k : Kernel) (disk : Memory) (stale : ℕ) (fd : ℤ) (buf : Memory) (count : ℕ) :
    Prop :=
  ∃ ret buf' accesses, fileReadLog k disk stale fd buf count = .ok (ret, buf', accesses) ∧
    (∀ a ∈ accesses, a.position + SECTOR_SIZE ≤ count) ∧ ∀ a ∈ accesses, a.sector ≠ none

/-- Where file_read stores sectors: one for each block up to block count / 512 that is below
2304, and one behind them. -/
def positions (count : ℕ) : List ℕ :=
  ((List.range (count / SECTOR_SIZE + 1)).filter (· < 2304)).map (SECTOR_SIZE * ·) ++
    [SECTOR_SIZE * (count / SECTOR_SIZE + 1)]

/-- file_read leaves the bytes behind the count as they were, and computes every sector number
from variables that were set. A byte that is stored may be the one that was there. -/
def KeepsRest (k : Kernel) (disk : Memory) (stale : ℕ) (fd : ℤ) (buf : Memory) (count : ℕ) :
    Prop :=
  ∃ ret buf' accesses, fileReadLog k disk stale fd buf count = .ok (ret, buf', accesses) ∧
    (∀ x, count ≤ x → buf' x = buf x) ∧ ∀ a ∈ accesses, a.sector ≠ none

/-- From start on the buffer holds what file_read copies there: up to the end of the sector of
block count / 512 that block, and in the sector after it the block of the fourth direct
pointer, moved by the place of an entry in its indirect block. -/
structure HoldsFrom (start : ℕ) (disk : Memory) (dataStart : ℤ) (inode : Inode) (buf : Memory)
    (count : ℕ) : Prop where
  loop : ∀ x, start ≤ x → x < 512 * (count / 512 + 1) →
    kernelByte disk dataStart inode buf x = buf x
  last : ∀ x, start ≤ x → 512 * (count / 512 + 1) ≤ x → x < 512 * (count / 512 + 2) →
    sectorData disk
      (dataStart + (directAt inode 3 + 2 * ((min (count / 512) 2303 - 4) % 256) : ℕ))
      (x - 512 * (count / 512 + 1)) = buf x

section Loop

variable (disk : Memory) (dataStart : ℤ) (inode : Inode)

theorem readBlocksLog_fst (n : ℕ) (s : ReadState) :
    (readBlocksLog disk dataStart inode n s).1 = readBlocks disk dataStart inode n s := by
  induction n generalizing s with
  | zero => rfl
  | succ n ih => exact ih _

/-- The loop computes the numbers of its sectors from the inode. -/
theorem sector_readBlocksLog (n : ℕ) (s : ReadState) :
    ∀ a ∈ (readBlocksLog disk dataStart inode n s).2, a.sector ≠ none := by
  induction n generalizing s with
  | zero => exact fun a ha => absurd ha List.not_mem_nil
  | succ n ih =>
    intro a ha
    rcases List.mem_append.mp ha with hfirst | hrest
    · obtain ⟨sector, -, rfl⟩ := List.mem_map.mp hfirst
      exact Option.some_ne_none sector
    · exact ih _ a hrest

theorem blockAccess_position (s : ReadState) :
    (blockAccess dataStart inode s).map Access.position =
      if s.block < 2304 then [s.moved] else [] := by
  unfold blockAccess kernelSector
  by_cases hdirect : s.block < 4
  · rw [if_pos hdirect, if_pos (by omega)]
    rfl
  · rw [if_neg hdirect]
    by_cases hindirect : s.block < 2304
    · rw [if_pos hindirect, if_pos hindirect]
      rfl
    · rw [if_neg hindirect, if_neg hindirect]
      rfl

/-- The loop goes through the buffer sector by sector. -/
theorem position_readBlocksLog (n : ℕ) (s : ReadState) (hmoved : s.moved = 512 * s.block) :
    (readBlocksLog disk dataStart inode n s).2.map Access.position =
      ((List.range' s.block n).filter (· < 2304)).map (SECTOR_SIZE * ·) := by
  induction n generalizing s with
  | zero => rfl
  | succ n ih =>
    have hrest := ih (readBlock disk dataStart inode s) (by
      rw [readBlock_moved, readBlock_block, hmoved]
      ring)
    rw [readBlock_block] at hrest
    rw [readBlocksLog, List.map_append, hrest, blockAccess_position, List.range'_succ,
      List.filter_cons]
    by_cases hlast : s.block < 2304
    · rw [if_pos hlast, if_pos (decide_eq_true hlast), List.map_cons, hmoved]
      rfl
    · rw [if_neg hlast, if_neg (by simpa using hlast)]
      rfl

/-- Only the bytes of the sectors that are stored change. -/
theorem readBlocksLog_frame (n : ℕ) (s : ReadState) {x : ℕ}
    (h : ∀ a ∈ (readBlocksLog disk dataStart inode n s).2,
      x < a.position ∨ a.position + SECTOR_SIZE ≤ x) :
    (readBlocksLog disk dataStart inode n s).1.buf x = s.buf x := by
  induction n generalizing s with
  | zero => rfl
  | succ n ih =>
    have hrest := ih (readBlock disk dataStart inode s)
      fun a ha => h a (List.mem_append_right _ ha)
    refine hrest.trans ?_
    rw [readBlock_buf]
    cases hsector : kernelSector dataStart inode s.block with
    | none => rfl
    | some sector =>
      have hmem : ⟨s.moved, some sector⟩ ∈ blockAccess dataStart inode s := by
        rw [blockAccess, hsector]
        exact List.mem_singleton_self _
      exact ideReadSector_outside _ _ _ (h _ (List.mem_append_left _ hmem))

end Loop

/-- Without the accesses, `fileReadLog` is file_read. -/
theorem fileReadLog_erase (k : Kernel) (disk : Memory) (stale : ℕ) (fd : ℤ) (buf : Memory)
    (count : ℕ) : (fileReadLog k disk stale fd buf count).map (fun r => (r.1, r.2.1)) =
      fileRead k disk stale fd buf count := by
  refine map_bind_eq fun i => ?_
  split
  · rfl
  · cases (k.fileDescriptorTab i).inode with
    | none => rfl
    | some slot =>
      refine map_bind_eq fun inode => ?_
      simp only [readBlocksLog_fst]
      rfl

section Reading

variable {k : Kernel} {fd : Fin FILE_DESCRIPTOR_TAB_SIZE} {slot : ℕ}

/-- The buffer and the accesses of a read. What is not stored in stays as it is. -/
theorem fileReadLog_spec (h : OpenAt k fd slot) (disk : Memory) (stale : ℕ) (buf : Memory)
    (count : ℕ) : ∃ accesses, fileReadLog k disk stale fd buf count = .ok (intOfUint count,
        leftByte disk stale (intOfUint k.superblock.datablocksStart) (k.inodeTable.inode slot) buf
          count, accesses) ∧
      accesses.map Access.position = positions count ∧
      ((∀ a ∈ accesses, a.sector ≠ none) ↔ 2048 ≤ count) ∧
      ∀ x, (∀ a ∈ accesses, x < a.position ∨ a.position + SECTOR_SIZE ≤ x) →
        leftByte disk stale (intOfUint k.superblock.datablocksStart) (k.inodeTable.inode slot) buf
          count x = buf x := by
  have hget : inodeGet k.inodeTable slot = .ok (k.inodeTable.inode slot) := if_pos h.slot_lt
  let dataStart := intOfUint k.superblock.datablocksStart
  let inode := k.inodeTable.inode slot
  let start : ReadState := ⟨0, none, none, buf, 0⟩
  let s := readBlocks disk dataStart inode (count / 512 + 1) start
  obtain ⟨-, hdata, hadress⟩ := readBlocks_variables disk dataStart inode buf (count / 512)
  have hmoved : s.moved = 512 * (count / 512 + 1) := by
    rw [← Nat.zero_add (count / 512 + 1)]
    exact (readBlocks_spec disk dataStart inode (count / 512 + 1) start rfl).1
  have hlog : fileReadLog k disk stale fd buf count = .ok (intOfUint count,
      ideReadSector disk (dataStart + (s.dataBlock.getD stale +
        s.adressInIndirectBlock.getD stale : ℕ)) s.buf s.moved,
      (readBlocksLog disk dataStart inode (count / 512 + 1) start).2 ++
        [⟨s.moved, lastSector dataStart s⟩]) := by
    simp only [fileReadLog, k.descriptor_val fd, ok_bind, if_neg h.status_ne, h.inode, hget,
      readBlocksLog_fst]
    rfl
  have herase := fileReadLog_erase k disk stale fd buf count
  rw [hlog, fileRead_left h.status_ne h.inode h.slot_lt] at herase
  have hbuf := congrArg Prod.snd (Except.ok.inj herase)
  dsimp only at hbuf
  refine ⟨_, by rw [hlog, hbuf], ?_, ?_, fun x hx => ?_⟩
  · rw [List.map_append, position_readBlocksLog disk dataStart inode _ start rfl, positions,
      List.range_eq_range']
    exact congrArg (fun last => _ ++ [last]) hmoved
  · have hlast : lastSector dataStart s ≠ none ↔ 2048 ≤ count := by
      rw [lastSector, show s.dataBlock = _ from hdata,
        show s.adressInIndirectBlock = _ from hadress]
      by_cases hlow : count < 2048
      · rw [if_pos (by omega)]
        exact iff_of_false (fun hsome => hsome rfl) (by omega)
      · rw [if_neg (by omega)]
        exact iff_of_true (fun hnone => by cases hnone) (by omega)
    rw [List.forall_mem_append, List.forall_mem_singleton, hlast]
    exact and_iff_right (sector_readBlocksLog disk dataStart inode _ start)
  · have hloop := readBlocksLog_frame disk dataStart inode _ start
      fun a ha => hx a (List.mem_append_left _ ha)
    rw [readBlocksLog_fst] at hloop
    change leftByte disk stale dataStart inode buf count x = buf x
    rw [← hbuf, ideReadSector_outside _ _ _ (hx _ (List.mem_append_right _
      (List.mem_singleton_self _)))]
    exact hloop

theorem last_mem_positions (count : ℕ) :
    SECTOR_SIZE * (count / SECTOR_SIZE + 1) ∈ positions count :=
  List.mem_append_right _ (List.mem_singleton_self _)

theorem le_of_mem_positions {count position : ℕ} (h : position ∈ positions count) :
    position ≤ SECTOR_SIZE * (count / SECTOR_SIZE + 1) := by
  rcases List.mem_append.mp h with hloop | hlast
  · obtain ⟨block, hblock, rfl⟩ := List.mem_map.mp hloop
    have hlt := List.mem_range.mp (List.mem_of_mem_filter hblock)
    exact Nat.mul_le_mul_left _ (Nat.le_of_lt hlt)
  · exact (List.mem_singleton.mp hlast).le

/-- The sectors lie within a number of bytes exactly if the one after the loop does. -/
theorem positions_within_iff (count size : ℕ) :
    (∀ position ∈ positions count, position + SECTOR_SIZE ≤ size) ↔
      SECTOR_SIZE * (count / SECTOR_SIZE + 2) ≤ size := by
  have hlast : SECTOR_SIZE * (count / SECTOR_SIZE + 1) + SECTOR_SIZE =
      SECTOR_SIZE * (count / SECTOR_SIZE + 2) := rfl
  constructor
  · intro h
    rw [← hlast]
    exact h _ (last_mem_positions count)
  · intro h position hposition
    have hle := le_of_mem_positions hposition
    omega

/-- No number of bytes has room for the sectors that are stored when it is asked for. -/
theorem positions_overrun (count : ℕ) :
    ¬ ∀ position ∈ positions count, position + SECTOR_SIZE ≤ count := by
  have hsize : SECTOR_SIZE = 512 := rfl
  rw [positions_within_iff, hsize]
  omega

theorem holdsFrom_iff (start : ℕ) (disk : Memory) (stale : ℕ) (dataStart : ℤ) (inode : Inode)
    (buf : Memory) {count : ℕ} (hcount : 2048 ≤ count) :
    HoldsFrom start disk dataStart inode buf count ↔ ∀ x, start ≤ x →
      x < 512 * (count / 512 + 2) → leftByte disk stale dataStart inode buf count x = buf x := by
  have hlast : lastBlock stale inode count =
      directAt inode 3 + 2 * ((min (count / 512) 2303 - 4) % 256) := by
    rw [lastBlock, lastAdress, if_neg (by omega), Option.getD_some, Nat.min_eq_right (by omega)]
  constructor
  · intro h x hx hlt
    rw [leftByte]
    by_cases hloop : x < 512 * (count / 512 + 1)
    · rw [if_pos hloop]
      exact h.loop x hx hloop
    · rw [if_neg hloop, if_pos hlt, hlast]
      exact h.last x hx (by omega) hlt
  · intro h
    refine ⟨fun x hx hloop => ?_, fun x hx hloop hlt => ?_⟩
    · have hbyte := h x hx (by omega)
      rw [leftByte, if_pos hloop] at hbyte
      exact hbyte
    · have hbyte := h x hx hlt
      rw [leftByte, if_neg (by omega), if_pos hlt, hlast] at hbyte
      exact hbyte

/-- The bytes behind the count stay as they were exactly if file_read reaches an indirect
block, and the buffer holds there the contents of the sectors that are stored. -/
theorem keepsRest_iff (h : OpenAt k fd slot) (disk : Memory) (stale : ℕ) (buf : Memory)
    (count : BitVec 32) : KeepsRest k disk stale fd buf count.toNat ↔ 2048 ≤ count.toNat ∧
      HoldsFrom count.toNat disk (intOfUint k.superblock.datablocksStart)
        (k.inodeTable.inode slot) buf count.toNat := by
  obtain ⟨accesses, hread, -, hset, -⟩ := fileReadLog_spec h disk stale buf count.toNat
  constructor
  · intro hkeeps
    obtain ⟨ret, buf', accesses', hread', hkept, hset'⟩ := hkeeps
    rw [hread] at hread'
    cases hread'
    have hcount := hset.mp hset'
    exact ⟨hcount, (holdsFrom_iff _ disk stale _ _ buf hcount).mpr fun x hx _ => hkept x hx⟩
  · intro hcond
    refine ⟨_, _, accesses, hread, fun x hx => ?_, hset.mpr hcond.1⟩
    by_cases hfar : 512 * (count.toNat / 512 + 2) ≤ x
    · exact leftByte_far _ _ _ _ _ hfar
    · exact (holdsFrom_iff _ disk stale _ _ buf hcond.1).mp hcond.2 x hx (by omega)

theorem not_staysWithin (h : OpenAt k fd slot) (disk : Memory) (stale : ℕ) (buf : Memory)
    (count : ℕ) : ¬ StaysWithin k disk stale fd buf count := by
  obtain ⟨accesses, hread, hpositions, -⟩ := fileReadLog_spec h disk stale buf count
  rintro ⟨ret, buf', accesses', hread', hwithin, -⟩
  rw [hread] at hread'
  cases hread'
  apply positions_overrun count
  rw [← hpositions]
  exact List.forall_mem_map.mpr hwithin

/-- Whatever is read of an open file, sectors are stored behind the count; their numbers are
computed from variables that were set exactly if an indirect block is reached. -/
theorem fileRead_overruns (h : OpenAt k fd slot) (disk : Memory) (stale : ℕ) (buf : Memory)
    (count : BitVec 32) : ¬ StaysWithin k disk stale fd buf count.toNat ∧
      ∃ ret buf' accesses,
        fileReadLog k disk stale fd buf count.toNat = .ok (ret, buf', accesses) ∧
        accesses.map Access.position = positions count.toNat ∧
        ((∀ a ∈ accesses, a.sector ≠ none) ↔ 2048 ≤ count.toNat) := by
  obtain ⟨accesses, hread, hpositions, hset, -⟩ := fileReadLog_spec h disk stale buf count.toNat
  exact ⟨not_staysWithin h disk stale buf count.toNat, _, _, accesses, hread, hpositions, hset⟩

end Reading

section Examples

open AddedFiles FileRemoval

/-- The first descriptor, open on the file of the large image. -/
theorem largeKernel_openAt : OpenAt (largeKernel.setDescriptor 0 ⟨some 1, 1, 0⟩) 0 1 :=
  openAt_setDescriptor 0 (show 1 < 124 by decide)

/-- All 2560 bytes of the file are read: six sectors and one more are stored, and all their
numbers are computed. -/
theorem fileRead_overruns_large :
    ¬ StaysWithin (largeKernel.setDescriptor 0 ⟨some 1, 1, 0⟩) largeImage.bytes 0
      (0 : Fin FILE_DESCRIPTOR_TAB_SIZE) (fun _ => 0) (2560 : BitVec 32).toNat ∧
    ∃ ret buf' accesses,
      fileReadLog (largeKernel.setDescriptor 0 ⟨some 1, 1, 0⟩) largeImage.bytes 0
        (0 : Fin FILE_DESCRIPTOR_TAB_SIZE) (fun _ => 0) (2560 : BitVec 32).toNat =
          .ok (ret, buf', accesses) ∧
      accesses.map Access.position = [0, 512, 1024, 1536, 2048, 2560, 3072] ∧
      ∀ a ∈ accesses, a.sector ≠ none := by
  obtain ⟨hnot, ret, buf', accesses, hread, hpositions, hset⟩ := fileRead_overruns
    largeKernel_openAt largeImage.bytes 0 (fun _ => 0) 2560
  exact ⟨hnot, ret, buf', accesses, hread, hpositions, hset.mpr (by decide)⟩

/-- cat reads 47 bytes of the file, and loses the byte behind them. -/
theorem staysWithin_cat : OpenAt (largeKernel.setDescriptor 0 ⟨some 1, 1, 0⟩) 0 1 ∧
    ∃ buf', fileRead (largeKernel.setDescriptor 0 ⟨some 1, 1, 0⟩) largeImage.bytes 0
        (0 : Fin FILE_DESCRIPTOR_TAB_SIZE) (fun _ => 1) 47 = .ok (47, buf') ∧ buf' 47 = 0 ∧
      ¬ StaysWithin (largeKernel.setDescriptor 0 ⟨some 1, 1, 0⟩) largeImage.bytes 0
        (0 : Fin FILE_DESCRIPTOR_TAB_SIZE) (fun _ => 1) 47 := by
  have h := largeKernel_openAt
  have hread := fileRead_left h.status_ne h.inode h.slot_lt largeImage.bytes 0 (fun _ => 1) 47
  rw [setDescriptor_superblock, setDescriptor_inodeTable] at hread
  have hbyte : leftByte largeImage.bytes 0 (intOfUint largeKernel.superblock.datablocksStart)
      (largeKernel.inodeTable.inode 1) (fun _ => 1) 47 47 = 0 := by
    decide +kernel
  exact ⟨h, _, hread, hbyte, not_staysWithin h largeImage.bytes 0 (fun _ => 1) 47⟩

/-- The file is followed by zeros, so that zeros behind the count stay. -/
example : KeepsRest (largeKernel.setDescriptor 0 ⟨some 1, 1, 0⟩) largeImage.bytes 0
    (0 : Fin FILE_DESCRIPTOR_TAB_SIZE) (fun _ => 0) (2560 : BitVec 32).toNat := by
  have hrest : ∀ t < 512, kernelByte largeImage.bytes
      (intOfUint largeKernel.superblock.datablocksStart) (largeKernel.inodeTable.inode 1)
      (fun _ => 0) (2560 + t) = 0 := by
    decide +kernel
  have hlast : ∀ t < 512, sectorData largeImage.bytes
      (intOfUint largeKernel.superblock.datablocksStart +
        (directAt (largeKernel.inodeTable.inode 1) 3 + 2 * ((min (2560 / 512) 2303 - 4) % 256) : ℕ))
      t = 0 := by
    decide +kernel
  rw [keepsRest_iff largeKernel_openAt, setDescriptor_superblock, setDescriptor_inodeTable]
  refine ⟨by decide, fun x hx hlt => ?_, fun x _ hx hlt => ?_⟩
  · change 2560 ≤ x at hx
    change x < 3072 at hlt
    rw [show x = 2560 + (x - 2560) by omega]
    exact hrest (x - 2560) (by omega)
  · change 3072 ≤ x at hx
    change x < 3584 at hlt
    exact hlast (x - 3072) (by omega)

end Examples

end RathalOS.ReadOverruns
