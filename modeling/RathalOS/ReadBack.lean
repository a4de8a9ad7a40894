import RathalOS.AddedFiles
import RathalOS.OffsetMapping

/-!
Reading files with fs_read. A file whose blocks match its size is read through
the same block map that fileByte describes: the position of an offset, computed
by division, is the place at which the k-th block is named. The copying loop
fills the destination range by range, each inside one block.
-/
namespace RathalOS.ReadBack

open ByteMemory ByteFile Blocks Bitmaps CStrings Superblocks Inodes FileAccess FirstFit
open Images AddFile Allocation AddedFiles EmptyImages OffsetMapping

section Positions

theorem offset_in_block (bs x d : ℕ) (h : x % bs + d < bs) :
    (x + d) / bs = x / bs ∧ (x + d) % bs = x % bs + d := by
  have hx := Nat.div_add_mod x bs
  have hsum : x + d = bs * (x / bs) + (x % bs + d) := by omega
  rw [hsum]
  constructor
  · rw [Nat.mul_add_div (by omega), Nat.div_eq_of_lt h, Nat.add_zero]
  · rw [Nat.mul_add_mod, Nat.mod_eq_of_lt h]

end Positions

section Reading

variable {sb : Superblock} {fs : File} {i : ℕ}

/-- The blocks that a file's size calls for are all there, and need at most nine tables. -/
theorem fileBlock_ne_zero {m : Memory} {inode : Inode} (hs : SizeExact sb m inode)
    (hbs : 512 ≤ sb.blockSize) {k : ℕ} (hk : k < blocksFor sb inode.size.toNat) :
    fileBlock sb m inode k ≠ 0 ∧
      (¬ k < 4 → (k - 4) / (sb.blockSize / 2) < 9 ∧
        indirectAt inode ((k - 4) / (sb.blockSize / 2)) ≠ 0) := by
  have hcap := hs.capacity
  by_cases h4 : k < 4
  · rw [fileBlock, if_pos h4]
    exact ⟨(hs.direct_iff k h4).mpr hk, fun h => absurd h4 h⟩
  · have hq : 0 < sb.blockSize / 2 := by omega
    have hj : (k - 4) % (sb.blockSize / 2) < sb.blockSize / 2 := Nat.mod_lt _ hq
    have h9 : (k - 4) / (sb.blockSize / 2) < 9 := by
      rw [Nat.div_lt_iff_lt_mul hq]
      omega
    have hsplit := Nat.div_add_mod' (k - 4) (sb.blockSize / 2)
    have hentry := (hs.entry_iff _ h9 _ hj).mpr (by omega)
    rw [fileBlock, if_neg h4]
    exact ⟨hentry, fun _ => ⟨h9, fun h0 => hentry (entryAt_of_zero h0 _)⟩⟩

/-- The block that fs_offset_to_block finds is the one that stores the offset. -/
theorem fsOffsetToBlock_spec (hr : Regions sb)
    (hcovers : sb.blockSize * (sb.datablocksStart + sb.datablockCount) ≤ fs.size)
    (hin : ∀ place, pointer sb fs.bytes (inodeAt sb fs.bytes i) place < sb.datablockCount)
    (hs : SizeExact sb fs.bytes (inodeAt sb fs.bytes i)) (stale : Memory) {x : ℕ}
    (hx : x < (inodeAt sb fs.bytes i).size.toNat) (p : ℕ) :
    ∃ p', fsOffsetToBlock stale x (inodeAt sb fs.bytes i) sb (fs.movedTo p) =
      .ok ((fileBlock sb fs.bytes (inodeAt sb fs.bytes i) (x / sb.blockSize) : ℤ),
        fs.movedTo p') := by
  have hbounds := hr.blockSize_bounds
  have hbs : 0 < sb.blockSize := by omega
  have hk : x / sb.blockSize < blocksFor sb (inodeAt sb fs.bytes i).size.toNat := by
    rw [lt_blocksFor_iff hbs]
    have := Nat.div_mul_le_self x sb.blockSize
    omega
  have hx' : x < reach sb.blockSize :=
    (Nat.div_lt_iff_lt_mul hbs).mp (lt_of_lt_of_le hk hs.capacity)
  have hblock : mappedBlock sb fs.bytes (inodeAt sb fs.bytes i) (x / sb.blockSize) =
      fileBlock sb fs.bytes (inodeAt sb fs.bytes i) (x / sb.blockSize) :=
    mappedBlock_eq_fileBlock (by omega) fun hpast =>
      ((fileBlock_ne_zero hs hbounds.1 hk).2 (Nat.not_lt.mpr hpast)).2
  rw [← hblock]
  exact fsOffsetToBlock_mapped hr hcovers (fun t => hin (.indirect t)) hx' stale p

/-- The loop of fs_read delivers the bytes of the file and leaves the rest. -/
theorem readLoop_spec (hr : Regions sb)
    (hcovers : sb.blockSize * (sb.datablocksStart + sb.datablockCount) ≤ fs.size)
    (hin : ∀ place, pointer sb fs.bytes (inodeAt sb fs.bytes i) place < sb.datablockCount)
    (hs : SizeExact sb fs.bytes (inodeAt sb fs.bytes i)) (stale : Memory) (left : ℕ) :
    ∀ (x o : ℕ) (dest buf : Memory) (p : ℕ),
      x + left ≤ (inodeAt sb fs.bytes i).size.toNat →
      ∃ p', readLoop stale (inodeAt sb fs.bytes i) sb left x o dest buf (fs.movedTo p) =
        .ok (fun a => if o ≤ a ∧ a < o + left
            then fileByte sb fs.bytes (inodeAt sb fs.bytes i) (x + (a - o)) else dest a,
          fs.movedTo p') := by
  have hbounds := hr.blockSize_bounds
  have hbs : 0 < sb.blockSize := by omega
  have hmax := (inodeAt sb fs.bytes i).size.isLt
  induction left using Nat.strong_induction_on with
  | h left ih =>
    intro x o dest buf p hx
    by_cases hleft : 0 < left
    · obtain ⟨p₁, hoffset⟩ := fsOffsetToBlock_spec hr hcovers hin hs stale (x := x) (by omega) p
      have hrange : fileBlock sb fs.bytes (inodeAt sb fs.bytes i) (x / sb.blockSize) <
          sb.datablockCount := by
        rw [fileBlock_eq_pointer]
        exact hin _
      obtain ⟨p₂, hread⟩ := hr.blockRead_data hcovers hrange buf p₁
      have hmod : x % sb.blockSize < sb.blockSize := Nat.mod_lt _ hbs
      -- the part of the range that lies in this block
      let n := if sb.blockSize - x % sb.blockSize < left then sb.blockSize - x % sb.blockSize
        else left
      have hn : n = min (sb.blockSize - x % sb.blockSize) left := by
        simp only [n]
        split <;> omega
      obtain ⟨p', hrest⟩ := ih (left - n) (by omega) (x + n) (o + n) (store dest o n
        (advance (fun t => if t < sb.blockSize then blockData sb fs.bytes
          (fileBlock sb fs.bytes (inodeAt sb fs.bytes i) (x / sb.blockSize)) t else buf t)
          (x % sb.blockSize))) _ p₂ (by omega)
      refine ⟨p', ?_⟩
      rw [readLoop, dif_pos hleft]
      refine (bind_of_ok hoffset _).trans ?_
      simp only [← Nat.cast_add]
      rw [uintOfInt_natCast (hr.data_index hrange)]
      refine (bind_of_ok hread _).trans ?_
      refine (dif_pos (show 0 < n by omega)).trans ?_
      rw [uint_of_lt (by omega)]
      refine hrest.trans (congrArg Except.ok (Prod.ext ?_ rfl))
      funext a
      by_cases hlater : o + n ≤ a ∧ a < o + n + (left - n)
      · simp only
        rw [if_pos hlater, if_pos (by omega), show x + n + (a - (o + n)) = x + (a - o) by omega]
      · simp only
        rw [if_neg hlater]
        by_cases hnow : o ≤ a ∧ a < o + n
        · obtain ⟨hdiv, hpos⟩ := offset_in_block sb.blockSize x (a - o) (by omega)
          rw [store_inside _ _ hnow.1 hnow.2, if_pos (by omega), fileByte, hdiv, hpos,
            advance_apply, if_pos (by omega)]
        · rw [store_outside _ _ (by omega), if_neg (by omega)]
    · refine ⟨p, ?_⟩
      rw [readLoop, dif_neg hleft]
      refine congrArg Except.ok (Prod.ext ?_ rfl)
      funext a
      exact (if_neg (by omega)).symm

/-- Reading a range of a file that exists and whose pointers name data blocks. -/
theorem fsRead_found (hsuper : Superblock.ofMemory fs.bytes = sb)
    (hvalid : superblockValid fs.bytes) (hr : Regions sb)
    (hcovers : sb.blockSize * (sb.datablocksStart + sb.datablockCount) ≤ fs.size)
    (hin : ∀ place, pointer sb fs.bytes (inodeAt sb fs.bytes i) place < sb.datablockCount)
    {filename : Memory} (hfound : lookup filename (inodeTableOf sb fs.bytes) = some i)
    (hs : SizeExact sb fs.bytes (inodeAt sb fs.bytes i)) (stale : Memory) (offset count : ℕ)
    (dest : Memory) (hcount : count < 2 ^ 31)
    (hrange : offset + count ≤ (inodeAt sb fs.bytes i).size.toNat) :
    ∃ p, fsRead stale filename offset count dest fs =
      .ok (.done, fun a => if a < count
        then fileByte sb fs.bytes (inodeAt sb fs.bytes i) (offset + a) else dest a,
        fs.movedTo p) := by
  obtain ⟨hi, -⟩ := lookup_live hfound
  obtain ⟨p₁, p₂, p₃, p₄, hsb, hib, hdb, hit⟩ := hr.reads hsuper hvalid
  have hget : inodeGet (inodeTableOf sb fs.bytes) i = .ok (inodeAt sb fs.bytes i) := by
    rw [inodeGet, if_pos (by exact hi.1), inodeTableOf_inode hi.1]
  obtain ⟨p, hloop⟩ := readLoop_spec hr hcovers hin hs stale count offset 0 dest stale p₄ hrange
  refine ⟨p, ?_⟩
  simp only [fsRead, hsb, ok_bind, hib, hdb, hit, fsGetFileInode_of_image, hfound, hget,
    intOfUint_of_lt hcount, Int.toNat_natCast, hloop, Nat.zero_le, true_and, Nat.zero_add,
    Nat.sub_zero]

theorem fsRead_spec (hc : Consistent sb fs) {filename : Memory}
    (hfound : lookup filename (inodeTableOf sb fs.bytes) = some i)
    (hs : SizeExact sb fs.bytes (inodeAt sb fs.bytes i)) (stale : Memory) (offset count : ℕ)
    (dest : Memory) (hcount : count < 2 ^ 31)
    (hrange : offset + count ≤ (inodeAt sb fs.bytes i).size.toNat) :
    ∃ p, fsRead stale filename offset count dest fs =
      .ok (.done, fun a => if a < count
        then fileByte sb fs.bytes (inodeAt sb fs.bytes i) (offset + a) else dest a,
        fs.movedTo p) :=
  fsRead_found hc.superblock hc.valid hc.layout.regions hc.covers
    (fun place => hc.blocks.inRange i place (lookup_live hfound).1) hfound hs stale offset count
    dest hcount hrange

end Reading

/-- Reading undoes adding. -/
theorem fsRead_addFile {sb : Superblock} {fs fs' : File} {c : List Byte} {stale filename : Memory}
    (hc : Consistent sb fs) (hlen : c.length < 2 ^ 31)
    (hadd : addFile stale (File.ofList c) filename c.length fs = .ok (.added, fs')) :
    (∃ itab i p, inodeTableRead sb.inodeCount sb.inodeStart sb.blockSize fs' =
        .ok (itab, fs'.movedTo p) ∧
      fsGetFileInode filename itab = .ok (some i) ∧ (itab.inode i).size.toNat = c.length) ∧
    ∀ (stale' : Memory) (offset count : ℕ) (dest : Memory), offset + count ≤ c.length →
      ∃ p, fsRead stale' filename offset count dest fs' =
        .ok (.done, fun a => if a < count then c.getD (offset + a) 0 else dest a,
          fs'.movedTo p) := by
  obtain ⟨hnone, hsize, i, data, tables, hadded⟩ := added_of_addFile hc (by omega) hadd
  have hbs := hc.layout.blockSize_bounds.1
  have hc' := hadded.consistent hc hsize
  have hfound := hadded.lookup hc hnone
  have hexact := hadded.sizeExact (dataBit_zero hc) hlen
  constructor
  · obtain ⟨p, hread⟩ := inodeTableRead_image hc'
    refine ⟨inodeTableOf sb fs'.bytes, i, p, hread, ?_, ?_⟩
    · rw [fsGetFileInode_of_image, hfound]
    · rw [inodeTableOf_inode hadded.slot_lt, hadded.size]
  · intro stale' offset count dest hrange
    obtain ⟨p, hread⟩ := fsRead_spec hc' hfound hexact stale' offset count dest (by omega)
      (by rw [hadded.size]; exact hrange)
    refine ⟨p, hread.trans (congrArg Except.ok (Prod.ext rfl (Prod.ext ?_ rfl)))⟩
    funext a
    by_cases ha : a < count
    · simp only [ha, if_true]
      exact hadded.fileByte (dataBit_zero hc) hbs hlen (by omega)
    · simp only [ha, if_false]

/-- Two bytes added to the small image are read back. -/
theorem fsRead_addFile_small : ∃ fs' p,
    addFile (fun _ => 0) (File.ofList [7, 9]) (nameOf 98) 2 largeImage = .ok (.added, fs') ∧
    fsRead (fun _ => 0) (nameOf 98) 1 1 (fun _ => 0) fs' =
      .ok (.done, fun a => if a < 1 then [7, 9].getD (1 + a) 0 else 0, fs'.movedTo p) := by
  have hadd : addFile (fun _ => 0) (File.ofList [7, 9]) (nameOf 98) [7, 9].length largeImage =
      .ok (.added, imageOf (addFile (fun _ => 0) (File.ofList [7, 9]) (nameOf 98) 2 largeImage)) :=
    eq_of_succeeded (by decide +kernel)
  obtain ⟨-, hread⟩ := fsRead_addFile largeImage_wellFormed.toConsistent (by decide) hadd
  obtain ⟨p, hp⟩ := hread (fun _ => 0) 1 1 (fun _ => 0) (by decide)
  exact ⟨_, p, hadd, hp⟩

end RathalOS.ReadBack
