import RathalOS.CopyLoops
import RathalOS.WriteBack

/-!
How a call of add_file ends, on every image whose metadata can be read. It finds
the name, or no clear inode bit, or runs the copying loops; then it gives up, or
stores the inode with the blocks the loops took and writes the metadata back.
-/
namespace RathalOS.AddOutcomes

open ByteMemory ByteFile Blocks Bitmaps CStrings Superblocks Inodes FileAccess FirstFit
open Images WriteBack AddFile Reservations Allocation CopyLoops

/-- The state in which the copying loops start. -/
def copyStart (sb : Superblock) (fs f : File) (n p : ℕ) : CopyState where
  datablockBitmap := bitmapOf fs.bytes (sb.blockSize * sb.datablockBitmapStart) sb.datablockCount
  dataLeft := intOfUint n
  freeDatablocks := intOfUint (freeCount (bitmapOf fs.bytes
    (sb.blockSize * sb.datablockBitmapStart) sb.datablockCount).test sb.datablockCount)
  f := f
  fs := fs.movedTo p

/-- The inode taken for a new file, with the pointers it had. -/
def takenInode (old : Inode) (filename : Memory) (i n : ℕ) : Inode :=
  { ({ old with number := BitVec.ofInt 16 (i : ℤ) } : Inode).setName filename with
    size := BitVec.ofNat 32 n }

/-- The inode of a new file, of which each pointer stored is overwritten. -/
def filledInode (old : Inode) (filename : Memory) (i n : ℕ) (data tables : List ℕ) : Inode :=
  { takenInode old filename i n with
    directPtr := overwritten Fin.val old.directPtr data
    indirectPtr := overwritten Fin.val old.indirectPtr tables }

/-- The inode of a new file in a slot that was empty. -/
def newInode (filename : Memory) (i n : ℕ) (dptrs : Fin 4 → BitVec 16)
    (iptrs : Fin 9 → BitVec 16) : Inode :=
  { takenInode Inode.zero filename i n with
    directPtr := dptrs
    indirectPtr := iptrs }

/-- The pointers to the blocks of a list: the low 16 bits of each. -/
def narrowed {m : ℕ} (l : List ℕ) (k : Fin m) : BitVec 16 := BitVec.ofNat 16 (l.getD k 0)

/-- What the copying loops leave, of n bytes of f, for an image fs. -/
structure Copied (stale : Memory) (sb : Superblock) (fs f : File) (n : ℕ) (data tables : List ℕ)
    (log : Log) (s : CopyState) : Prop where
  progress : Progress stale sb (dataBit sb fs.bytes) fs f (intOfUint n) data tables
    tables.length s
  logged : Logged sb (dataBit sb fs.bytes) log data tables
  tables_le : tables.length ≤ 9
  room : data.length ≤ 4 + tables.length * (sb.blockSize / 2)
  full : s.more → data.length = 4 + 9 * (sb.blockSize / 2)

/-- What a successful call writes back after the loops, for an inode in slot i. -/
structure InodeStored (sb : Superblock) (fs : File) (inode : Inode) (i : ℕ) (s : CopyState)
    (ib : Bitmap) (itab : InodeTable) (fs' : File) : Prop where
  grows : s.fs.size ≤ fs'.size
  inodeBitmap : ib.test = reserve (bitmapOf fs.bytes
    (sb.blockSize * sb.inodeBitmapStart) sb.inodeCount).test i
  slots : ∀ a < sb.inodeCount * inodeSize, a / inodeSize ≠ i →
    itab.inodes a = fs.bytes (sb.blockSize * sb.inodeStart + a)
  written : TablesWritten sb ib s.datablockBitmap (inodePut itab i inode) s.fs.bytes fs'.bytes

/-- What is written back for a file in a slot that was empty. -/
abbrev Stored (sb : Superblock) (fs : File) (filename : Memory) (n i : ℕ)
    (data tables : List ℕ) (s : CopyState) (ib : Bitmap) (itab : InodeTable) (fs' : File) : Prop :=
  InodeStored sb fs (newInode filename i n (narrowed data) (narrowed tables)) i s ib itab fs'

section

variable {stale : Memory} {sb : Superblock} {fs f : File} {n : ℕ}

theorem progress_start (hr : Regions sb) (fs : File) (stale : Memory) (f : File) (n p : ℕ) :
    Progress stale sb (dataBit sb fs.bytes) fs f (intOfUint n) [] [] 0 (copyStart sb fs f n p) := by
  obtain ⟨-, hcount⟩ := hr.counts
  constructor
  case count => rfl
  case size => rfl
  case held_iff =>
    intro b hb
    rw [copyStart, bitmapOf_test hb]
    simp [dataBit]
  case distinct => exact List.nodup_nil
  case fresh =>
    intro b hb
    simp at hb
  case free => exact intOfUint_of_lt (Nat.lt_of_le_of_lt (Nat.count_le _) (by omega))
  case left => simp [copyStart]
  case source => simp [copyStart]
  case data_le => exact Nat.zero_le _
  case tables_needed =>
    intro i hi
    simp at hi
  case grows => exact Nat.le_refl _
  case frame =>
    intro a _
    rfl
  case stored =>
    intro k hk
    simp at hk
  case listed =>
    intro i hi
    omega

theorem takenInode_shownName (old : Inode) (filename : Memory) (i n : ℕ) (dptrs : Fin 4 → BitVec 16)
    (iptrs : Fin 9 → BitVec 16) :
    ({ takenInode old filename i n with directPtr := dptrs, indirectPtr := iptrs } :
      Inode).shownName = cut 31 filename := by
  rw [← Inode.shownName_setName { old with number := BitVec.ofInt 16 (i : ℤ) } filename]
  apply cut_congr
  intro k hk
  rw [Inode.namePtr_apply _ (by omega), Inode.namePtr_apply _ (by omega)]
  rfl

theorem newInode_shownName (filename : Memory) (i n : ℕ) (dptrs : Fin 4 → BitVec 16)
    (iptrs : Fin 9 → BitVec 16) :
    (newInode filename i n dptrs iptrs).shownName = cut 31 filename :=
  takenInode_shownName _ _ _ _ _ _

theorem filledInode_zero (filename : Memory) (i n : ℕ) (data tables : List ℕ) :
    filledInode Inode.zero filename i n data tables =
      newInode filename i n (narrowed data) (narrowed tables) := by
  have hdata : overwritten Fin.val Inode.zero.directPtr data = narrowed data :=
    funext (overwritten_zero Fin.val data)
  have htables : overwritten Fin.val Inode.zero.indirectPtr tables = narrowed tables :=
    funext (overwritten_zero Fin.val tables)
  rw [filledInode, hdata, htables]
  rfl

/-- The three ways through add_file up to the copying loops. -/
theorem addFileLogIn_cases (hr : Regions sb) (hcount : sb.inodeCount ≤ 65535) (fs : File)
    (p₀ : ℕ) (stale filename : Memory) (f : File) (n : ℕ) :
    (lookup filename (inodeTableOf sb fs.bytes) ≠ none ∧ ∃ p,
      addFileLogIn stale sb f filename n (fs.movedTo p₀) = .ok (.alreadyExists, fs.movedTo p, [])) ∨
    (lookup filename (inodeTableOf sb fs.bytes) = none ∧
      (∀ i < sb.inodeCount, inodeBit sb fs.bytes i = true) ∧ ∃ p,
      addFileLogIn stale sb f filename n (fs.movedTo p₀) = .ok (.noInode, fs.movedTo p, [])) ∨
    (lookup filename (inodeTableOf sb fs.bytes) = none ∧ ∃ (i : ℕ) (ib : Bitmap)
        (itab : InodeTable) (p : ℕ),
      firstFree (inodeBit sb fs.bytes) sb.inodeCount = some i ∧
      ib.size = (sb.inodeCount + 7) / 8 ∧
      ib.test = reserve (bitmapOf fs.bytes
        (sb.blockSize * sb.inodeBitmapStart) sb.inodeCount).test i ∧
      itab.size = sb.inodeCount * inodeSize ∧
      (∀ a < sb.inodeCount * inodeSize, a / inodeSize ≠ i →
        itab.inodes a = fs.bytes (sb.blockSize * sb.inodeStart + a)) ∧
      addFileLogIn stale sb f filename n (fs.movedTo p₀) = (do
        let (inode, s, log) ← directLoopLog stale sb (List.finRange 4)
          (takenInode (inodeAt sb fs.bytes i) filename i n) (copyStart sb fs f n p) []
        let (inode, s, log) ← indirectLoopLog stale sb (List.finRange 9) inode s log
        if 0 < s.dataLeft then .ok (.notEnoughBlocks, s.fs, log)
        else do
          let fs' ← writeMetadata sb ib s.datablockBitmap (inodePut itab i inode) s.fs
          .ok (.added, fs', log))) := by
  obtain ⟨-, hdata⟩ := hr.counts
  obtain ⟨p₁, p₂, p, hib, hdb, hit⟩ := hr.reads_tables fs p₀
  by_cases hfound : lookup filename (inodeTableOf sb fs.bytes) = none
  · obtain ⟨i, ib, hfirst, hreserve, hibsize, hibtest⟩ | ⟨hnone, hreserve⟩ :=
      inodeReserveFirstAvailable_spec (inodeTableOf sb fs.bytes)
        (bitmapOf_sized fs.bytes (sb.blockSize * sb.inodeBitmapStart) sb.inodeCount (by omega))
        (Nat.le_refl _)
    · have hslot : firstFree (inodeBit sb fs.bytes) sb.inodeCount = some i := by
        rw [← hfirst]
        exact firstFree_congr fun j hj => (bitmapOf_test hj).symm
      have hi : i < sb.inodeCount := (firstFree_some hslot).1
      have hget : inodeGet (inodePut (inodeTableOf sb fs.bytes) i
          { (inodeTableOf sb fs.bytes).inode i with number := BitVec.ofInt 16 (i : ℤ) }) i =
          .ok { inodeAt sb fs.bytes i with number := BitVec.ofInt 16 (i : ℤ) } := by
        rw [inodeGet, if_pos (by exact hi), inodePut_self, inodeTableOf_inode hi]
      have hfree := bitmapGetFreeBits_spec (bitmapOf_sized fs.bytes
        (sb.blockSize * sb.datablockBitmapStart) sb.datablockCount hdata)
      refine Or.inr (Or.inr ⟨hfound, i, ib, inodePut (inodeTableOf sb fs.bytes) i
        { (inodeTableOf sb fs.bytes).inode i with number := BitVec.ofInt 16 (i : ℤ) },
        p, hslot, hibsize, hibtest, rfl, ?_, ?_⟩)
      · intro a ha hai
        rw [inodePut_outside _ _ hai]
        exact if_pos ha
      · simp only [addFileLogIn, ok_bind, hib, hdb, hit, fsGetFileInode_of_image, hfound,
          ne_eq, not_true_eq_false, if_false, hreserve, hget, hfree]
        rfl
    · refine Or.inr (Or.inl ⟨hfound, ?_, p, ?_⟩)
      · intro i hi
        have hheld := firstFree_none_iff.mp hnone i hi
        rw [bitmapOf_test hi] at hheld
        exact hheld
      · simp only [addFileLogIn, ok_bind, hib, hdb, hit, fsGetFileInode_of_image, hfound,
          ne_eq, not_true_eq_false, if_false, hreserve]
  · refine Or.inl ⟨hfound, p, ?_⟩
    simp only [addFileLogIn, ok_bind, hib, hdb, hit, fsGetFileInode_of_image, ne_eq, hfound,
      not_false_eq_true, if_true]

/-- Both loops over the pointers return, and leave the blocks they took in them. -/
theorem copyLoops_spec (hr : Regions sb) (fs : File) (stale : Memory) (old : Inode)
    (filename : Memory) (f : File) (i p : ℕ) (hn : n < 2 ^ 32) :
    ∃ (inode : Inode) (s₁ s : CopyState) (log₁ log : Log) (data tables : List ℕ),
      directLoopLog stale sb (List.finRange 4) (takenInode old filename i n)
        (copyStart sb fs f n p) [] = .ok (inode, s₁, log₁) ∧
      indirectLoopLog stale sb (List.finRange 9) inode s₁ log₁ =
        .ok (filledInode old filename i n data tables, s, log) ∧
      Copied stale sb fs f n data tables log s := by
  obtain ⟨s₁, log₁, data₁, hdirect, h₁, hlog₁, hdle, hdmore⟩ :=
    directLoopLog_spec hr (intOfUint_lt hn) (List.finRange 4) (takenInode old filename i n)
      old.directPtr (progress_start hr fs stale f n p) (Logged.nil _ _) (by simp) rfl
  obtain ⟨s, log, data, tables, hindirect, h, hlog, htables, hroom, hfull, hpre, hshort⟩ :=
    indirectLoopLog_spec hr (intOfUint_lt hn) (List.finRange 9)
      { takenInode old filename i n with directPtr := overwritten Fin.val old.directPtr data₁ }
      old.indirectPtr h₁ hlog₁ (by simp) rfl (by simpa using hdle) (by simpa using hdmore)
  have hdata : overwritten Fin.val old.directPtr data₁ =
      overwritten Fin.val old.directPtr data := by
    funext k
    by_cases hlt : data₁.length < 4
    · rw [hshort hlt]
    · exact (overwritten_extended hpre (by omega)).symm
  rw [overwritten_nil] at hdirect hindirect
  refine ⟨_, s₁, s, log₁, log, data, tables, hdirect, ?_, h, hlog, htables, hroom, hfull⟩
  rw [filledInode, ← hdata]
  exact hindirect

/-- add_file always returns; this is what each outcome means on any image. -/
theorem addFileLogIn_spec (hr : Regions sb) (hcount : sb.inodeCount ≤ 65535) (fs : File)
    (p₀ : ℕ) (stale filename : Memory) (f : File) (hn : n < 2 ^ 32) :
    (lookup filename (inodeTableOf sb fs.bytes) ≠ none ∧ ∃ p,
      addFileLogIn stale sb f filename n (fs.movedTo p₀) = .ok (.alreadyExists, fs.movedTo p, [])) ∨
    (lookup filename (inodeTableOf sb fs.bytes) = none ∧
      (∀ i < sb.inodeCount, inodeBit sb fs.bytes i = true) ∧ ∃ p,
      addFileLogIn stale sb f filename n (fs.movedTo p₀) = .ok (.noInode, fs.movedTo p, [])) ∨
    (lookup filename (inodeTableOf sb fs.bytes) = none ∧
      ∃ i, firstFree (inodeBit sb fs.bytes) sb.inodeCount = some i ∧
      ∃ data tables log s, Copied stale sb fs f n data tables log s ∧
        ((0 < s.dataLeft ∧
          addFileLogIn stale sb f filename n (fs.movedTo p₀) = .ok (.notEnoughBlocks, s.fs, log)) ∨
        (¬ 0 < s.dataLeft ∧ ∃ ib itab fs',
          addFileLogIn stale sb f filename n (fs.movedTo p₀) = .ok (.added, fs', log) ∧
          InodeStored sb fs (filledInode (inodeAt sb fs.bytes i) filename i n data tables) i s
            ib itab fs'))) := by
  rcases addFileLogIn_cases hr hcount fs p₀ stale filename f n with hexists | hnone |
    ⟨hfound, i, ib, itab, p, hslot, hibsize, hibtest, hitab, hslots, hrun⟩
  · exact Or.inl hexists
  · exact Or.inr (Or.inl hnone)
  · obtain ⟨inode, s₁, s, log₁, log, data, tables, hdirect, hindirect, hcopied⟩ :=
      copyLoops_spec hr fs stale (inodeAt sb fs.bytes i) filename f i p hn
    simp only [hdirect, ok_bind, hindirect] at hrun
    refine Or.inr (Or.inr ⟨hfound, i, hslot, data, tables, log, s, hcopied, ?_⟩)
    by_cases hdone : 0 < s.dataLeft
    · rw [if_pos hdone] at hrun
      exact Or.inl ⟨hdone, hrun⟩
    · obtain ⟨fs', hwrite, hwritten, hgrows, -⟩ := writeMetadata_bytes ib s.datablockBitmap
        (inodePut itab i (filledInode (inodeAt sb fs.bytes i) filename i n data tables)) s.fs
        hr hibsize hcopied.progress.size hitab
      rw [if_neg hdone, hwrite, ok_bind] at hrun
      exact Or.inr ⟨hdone, ib, itab, fs', hrun, hgrows, hibtest, hslots, hwritten⟩

/-- The same on an image whose superblock is read and whose free slots are empty. -/
theorem addFileLog_spec (ha : Accessible sb fs) (stale filename : Memory) (f : File)
    (hn : n < 2 ^ 32) :
    (lookup filename (inodeTableOf sb fs.bytes) ≠ none ∧ ∃ p,
      addFileLog stale f filename n fs = .ok (.alreadyExists, fs.movedTo p, [])) ∨
    (lookup filename (inodeTableOf sb fs.bytes) = none ∧
      (∀ i < sb.inodeCount, inodeBit sb fs.bytes i = true) ∧ ∃ p,
      addFileLog stale f filename n fs = .ok (.noInode, fs.movedTo p, [])) ∨
    (lookup filename (inodeTableOf sb fs.bytes) = none ∧
      ∃ i < sb.inodeCount, inodeBit sb fs.bytes i = false ∧
      ∃ data tables log s, Copied stale sb fs f n data tables log s ∧
        ((0 < s.dataLeft ∧
          addFileLog stale f filename n fs = .ok (.notEnoughBlocks, s.fs, log)) ∨
        (¬ 0 < s.dataLeft ∧ ∃ ib itab fs',
          addFileLog stale f filename n fs = .ok (.added, fs', log) ∧
          Stored sb fs filename n i data tables s ib itab fs'))) := by
  obtain ⟨p, hsuper⟩ := superblockRead_spec fs ha.valid
  rw [ha.superblock] at hsuper
  have hrun : addFileLog stale f filename n fs =
      addFileLogIn stale sb f filename n (fs.movedTo p) := bind_of_ok hsuper _
  rw [hrun]
  rcases addFileLogIn_spec ha.regions ha.inodeCount_le fs p stale filename f hn with
    hexists | hnone | ⟨hfound, i, hslot, data, tables, log, s, hcopied, hend⟩
  · exact Or.inl hexists
  · exact Or.inr (Or.inl hnone)
  · obtain ⟨hi, hclear, -⟩ := firstFree_some hslot
    rw [ha.clear_zero i hi hclear, filledInode_zero] at hend
    exact Or.inr (Or.inr ⟨hfound, i, hi, hclear, data, tables, log, s, hcopied, hend⟩)

/-- The new inode, in its slot. -/
theorem InodeStored.inodeAt_self {inode : Inode} {i : ℕ} {s : CopyState}
    {ib : Bitmap} {itab : InodeTable} {fs' : File}
    (h : InodeStored sb fs inode i s ib itab fs') (hi : i < sb.inodeCount) :
    inodeAt sb fs'.bytes i = inode := by
  rw [inodeAt_of_slots h.written.slot hi, inodePut_self]

/-- The bytes of every other slot are kept. -/
theorem InodeStored.slot {inode : Inode} {i : ℕ} {s : CopyState}
    {ib : Bitmap} {itab : InodeTable} {fs' : File}
    (h : InodeStored sb fs inode i s ib itab fs') {j k : ℕ} (hj : j < sb.inodeCount)
    (hji : j ≠ i) (hk : k < inodeSize) :
    fs'.bytes (sb.blockSize * sb.inodeStart + inodeSize * j + k) =
      fs.bytes (sb.blockSize * sb.inodeStart + inodeSize * j + k) := by
  have hdiv := slot_div j hk
  have hin : inodeSize * j + k < sb.inodeCount * inodeSize := by
    simp only [inodeSize] at hk ⊢
    omega
  rw [Nat.add_assoc, h.written.slot _ hin, inodePut_outside _ _ (by rwa [hdiv])]
  exact h.slots _ hin (by rwa [hdiv])

/-- A data block that was not taken keeps its contents. -/
theorem kept_block {inode : Inode} {i : ℕ} {data tables : List ℕ} {log : Log} {s : CopyState}
    {ib : Bitmap} {itab : InodeTable} {fs' : File} (hbs : 0 < sb.blockSize)
    (hcopied : Copied stale sb fs f n data tables log s)
    (hstored : InodeStored sb fs inode i s ib itab fs') {b : ℕ} (hb0 : b ≠ 0)
    (hb : b ∉ data ++ tables) :
    ∀ t < sb.blockSize, blockData sb fs'.bytes b t = blockData sb fs.bytes b t := by
  rw [hstored.written.block hb0]
  apply blockData_frame hbs
  intro a ha
  apply hcopied.progress.frame
  intro b' hb' heq
  have hbb : b' = b := by omega
  exact hb (hbb ▸ hb')

end

end RathalOS.AddOutcomes
