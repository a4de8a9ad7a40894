import RathalOS.FileAccess
import RathalOS.EmptyImages

/-!
The mapping of fs_offset_to_block, tools/fs.c. It is exact for every offset but one: the
check for the range lets the offset right behind it pass, and the mapping then looks for a
tenth indirect pointer.
-/
namespace RathalOS.OffsetMapping

open ByteMemory ByteFile Blocks Bitmaps Superblocks Inodes FileAccess Images EmptyImages

/-- A block that an image holds, at an offset that fseek can reach, behind the superblock. -/
structure Held (bs block : ℕ) (fs : File) : Prop where
  pos : 0 < block
  inside : bs * block + bs ≤ fs.size
  addressable : bs * block < 2 ^ 31

/-- What fs_offset_to_block returns. -/
def mapped (stale : Memory) (offset : ℕ) (inode : Inode) (sb : Superblock) (fs : File) :
    Except Fault ℤ :=
  (fsOffsetToBlock stale offset inode sb fs).map Prod.fst

/-- An offset is mapped to a direct pointer, to an entry of the table that an indirect
pointer names, or to -1, and no pointer outside the inode is used. -/
structure ExactAt (stale : Memory) (offset : ℕ) (inode : Inode) (sb : Superblock)
    (fs : File) : Prop where
  direct : offset < 4 * sb.blockSize → ∃ k : Fin 4, (k : ℕ) = offset / sb.blockSize ∧
    mapped stale offset inode sb fs = .ok (inode.directPtr k).toNat
  indirect : 4 * sb.blockSize ≤ offset → offset < reach sb.blockSize →
    ∃ t : Fin 9, (t : ℕ) = (offset / sb.blockSize - 4) / (sb.blockSize / 2) ∧
      ∀ block, block = sb.datablocksStart + (inode.indirectPtr t).toNat →
        Held sb.blockSize block fs →
          mapped stale offset inode sb fs = .ok (read16 fs.bytes (sb.blockSize * block +
            2 * ((offset / sb.blockSize - 4) % (sb.blockSize / 2)))).toNat
  beyond : reach sb.blockSize ≤ offset → mapped stale offset inode sb fs = .ok (-1)
  inside : mapped stale offset inode sb fs ≠ .error .undefined

section Mapping

variable {stale : Memory} {inode : Inode} {sb : Superblock} {fs : File} {offset : ℕ}

theorem mapped_direct (stale : Memory) (inode : Inode) (fs : File) (hbs : 0 < sb.blockSize)
    (h : offset < 4 * sb.blockSize) :
    ∃ k : Fin 4, (k : ℕ) = offset / sb.blockSize ∧
      mapped stale offset inode sb fs = .ok (inode.directPtr k).toNat := by
  have h4 : offset / sb.blockSize < 4 := (Nat.div_lt_iff_lt_mul hbs).mpr h
  refine ⟨⟨_, h4⟩, rfl, ?_⟩
  rw [mapped, fsOffsetToBlock_direct stale fs h4 h]
  rfl

theorem mapped_indirect (hbs : 2 ≤ sb.blockSize) (h : 4 * sb.blockSize ≤ offset)
    (h9 : (offset / sb.blockSize - 4) / (sb.blockSize / 2) < 9)
    (hheld : Held sb.blockSize (sb.datablocksStart +
      (inode.indirectPtr ⟨(offset / sb.blockSize - 4) / (sb.blockSize / 2), h9⟩).toNat) fs) :
    mapped stale offset inode sb fs = .ok (read16 fs.bytes (sb.blockSize *
      (sb.datablocksStart +
        (inode.indirectPtr ⟨(offset / sb.blockSize - 4) / (sb.blockSize / 2), h9⟩).toNat) +
      2 * ((offset / sb.blockSize - 4) % (sb.blockSize / 2)))).toNat := by
  have hpos : 0 < sb.blockSize := by omega
  have hentry : (offset / sb.blockSize - 4) % (sb.blockSize / 2) < sb.blockSize / 2 :=
    Nat.mod_lt _ (by omega)
  have hindex := Nat.le_mul_of_pos_left (sb.datablocksStart +
    (inode.indirectPtr ⟨(offset / sb.blockSize - 4) / (sb.blockSize / 2), h9⟩).toNat) hpos
  have haddress := hheld.addressable
  obtain ⟨p, hread⟩ := blockRead_spec stale fs hpos hheld.pos haddress hheld.inside
  rw [mapped, fsOffsetToBlock_indirect stale fs hbs h h9, uint_of_lt (by omega), hread, ok_bind]
  dsimp only
  rw [read16_congr (if_pos (by omega)) (if_pos (by omega))]
  rfl

theorem blockRead_inside (bs block : ℕ) (dest : Memory) (fs : File) :
    blockRead bs block dest fs ≠ .error .undefined := by
  unfold blockRead
  split <;> nofun

theorem mapped_inside (hbs : 2 ≤ sb.blockSize) (hne : offset ≠ reach sb.blockSize) :
    mapped stale offset inode sb fs ≠ .error .undefined := by
  rcases Nat.lt_or_ge offset (4 * sb.blockSize) with hdirect | hpast
  · obtain ⟨k, -, hmapped⟩ := mapped_direct stale inode fs (by omega) hdirect
    rw [hmapped]
    nofun
  · rcases Nat.lt_or_gt_of_ne hne with hlow | hhigh
    · have h9 := (table_lt_iff hbs hpast).mpr hlow
      rw [mapped, fsOffsetToBlock_indirect stale fs hbs hpast h9]
      cases hread : blockRead sb.blockSize (uint (sb.datablocksStart + (inode.indirectPtr
          ⟨(offset / sb.blockSize - 4) / (sb.blockSize / 2), h9⟩).toNat)) stale fs with
      | ok r => nofun
      | error e =>
        intro h
        cases h
        exact blockRead_inside _ _ _ _ hread
    · rw [mapped, fsOffsetToBlock_beyond stale fs hhigh]
      nofun

theorem exactAt_of_ne (hbs : 2 ≤ sb.blockSize) (hne : offset ≠ reach sb.blockSize) :
    ExactAt stale offset inode sb fs := by
  constructor
  case direct => exact mapped_direct stale inode fs (by omega)
  case indirect =>
    intro hpast hlow
    have h9 := (table_lt_iff hbs hpast).mpr hlow
    refine ⟨⟨_, h9⟩, rfl, ?_⟩
    rintro block rfl hheld
    exact mapped_indirect hbs hpast h9 hheld
  case beyond =>
    intro hhigh
    rw [mapped, fsOffsetToBlock_beyond stale fs (lt_of_le_of_ne hhigh hne.symm)]
    rfl
  case inside => exact mapped_inside hbs hne

theorem not_exactAt_reach (hbs : 2 ≤ sb.blockSize) :
    ¬ ExactAt stale (reach sb.blockSize) inode sb fs := by
  intro h
  refine h.inside ?_
  rw [mapped, fsOffsetToBlock_reach stale fs hbs]
  rfl

end Mapping

section Regions

/-- The data block that fs_offset_to_block takes for the k-th block of a file. A null
indirect pointer is followed like any other, to the data block 0. -/
def mappedBlock (sb : Superblock) (m : Memory) (inode : Inode) (k : ℕ) : ℕ :=
  if k < 4 then directAt inode k
  else (read16 (blockData sb m (indirectAt inode ((k - 4) / (sb.blockSize / 2))))
    (2 * ((k - 4) % (sb.blockSize / 2)))).toNat

variable {sb : Superblock} {fs : File} {inode : Inode} {x : ℕ}

theorem mappedBlock_lt (sb : Superblock) (m : Memory) (inode : Inode) (k : ℕ) :
    mappedBlock sb m inode k < 2 ^ 16 := by
  by_cases h4 : k < 4
  · rw [mappedBlock, if_pos h4, directAt, dif_pos h4]
    exact BitVec.isLt _
  · rw [mappedBlock, if_neg h4]
    exact BitVec.isLt _

theorem mappedBlock_eq_fileBlock {m : Memory} {k : ℕ} (hbs : 2 ≤ sb.blockSize)
    (h : 4 ≤ k → indirectAt inode ((k - 4) / (sb.blockSize / 2)) ≠ 0) :
    mappedBlock sb m inode k = fileBlock sb m inode k := by
  unfold mappedBlock fileBlock
  split
  · rfl
  · rename_i hpast
    have hentry : (k - 4) % (sb.blockSize / 2) < sb.blockSize / 2 := Nat.mod_lt _ (by omega)
    rw [entryAt, if_pos ⟨h (Nat.le_of_not_lt hpast), hentry⟩]

/-- In an image the mapping reads nothing but the data region. -/
theorem fsOffsetToBlock_mapped (hr : Regions sb)
    (hcovers : sb.blockSize * (sb.datablocksStart + sb.datablockCount) ≤ fs.size)
    (hindirect : ∀ t, indirectAt inode t < sb.datablockCount) (hx : x < reach sb.blockSize)
    (stale : Memory) (p : ℕ) :
    ∃ p', fsOffsetToBlock stale x inode sb (fs.movedTo p) =
      .ok ((mappedBlock sb fs.bytes inode (x / sb.blockSize) : ℤ), fs.movedTo p') := by
  have hbounds := hr.blockSize_bounds
  have hbs : 0 < sb.blockSize := by omega
  rcases Nat.lt_or_ge x (4 * sb.blockSize) with hdirect | hpast
  · have h4 : x / sb.blockSize < 4 := (Nat.div_lt_iff_lt_mul hbs).mpr hdirect
    refine ⟨p, ?_⟩
    rw [fsOffsetToBlock_direct stale _ h4 hdirect, mappedBlock, if_pos h4, directAt, dif_pos h4]
  · have hge : 4 ≤ x / sb.blockSize := (Nat.le_div_iff_mul_le hbs).mpr hpast
    have hentry : (x / sb.blockSize - 4) % (sb.blockSize / 2) < sb.blockSize / 2 :=
      Nat.mod_lt _ (by omega)
    have h9 := (table_lt_iff (by omega) hpast).mpr hx
    have hptr : (inode.indirectPtr ⟨(x / sb.blockSize - 4) / (sb.blockSize / 2), h9⟩).toNat =
        indirectAt inode ((x / sb.blockSize - 4) / (sb.blockSize / 2)) := by
      rw [indirectAt, dif_pos h9]
    have hrange := hindirect ((x / sb.blockSize - 4) / (sb.blockSize / 2))
    obtain ⟨p', hread⟩ := hr.blockRead_data hcovers hrange stale p
    refine ⟨p', ?_⟩
    rw [fsOffsetToBlock_indirect stale _ (by omega) hpast h9, hptr,
      uint_of_lt (hr.data_index hrange)]
    refine (bind_of_ok hread _).trans ?_
    dsimp only
    rw [mappedBlock, if_neg (by omega),
      read16_congr (if_pos (by omega)) (if_pos (by omega))]

end Regions

/-- The mapping is exact at every offset but the first that no pointer reaches. -/
theorem exactAt_iff (stale : Memory) (inode : Inode) {sb : Superblock} (fs : File)
    (hbs : sb.blockSize ∈ blockSizes) (offset : BitVec 32) :
    ExactAt stale offset.toNat inode sb fs ↔ offset.toNat ≠ reach sb.blockSize := by
  have hbounds := blockSizes_bounds hbs
  constructor
  · intro h heq
    rw [heq] at h
    exact not_exactAt_reach (by omega) h
  · intro hne
    exact exactAt_of_ne (by omega) hne

/-- The last offset in reach with blocks of 512 bytes. -/
theorem exactAt_iff_small : ExactAt (fun _ => 0) (1181695 : BitVec 32).toNat
    (Inode.ofMemory fun _ => 0) smallSuperblock File.empty :=
  (exactAt_iff (fun _ => 0) (Inode.ofMemory fun _ => 0) File.empty (by decide)
    (1181695 : BitVec 32)).mpr (by decide)

theorem exactAt_behind : ¬ ExactAt (fun _ => 0) (1181696 : BitVec 32).toNat
    (Inode.ofMemory fun _ => 0) smallSuperblock File.empty := by
  have hbs : 2 ≤ smallSuperblock.blockSize := by decide
  have hreach : (1181696 : BitVec 32).toNat = reach smallSuperblock.blockSize := by decide
  rw [hreach]
  exact not_exactAt_reach hbs

end RathalOS.OffsetMapping
