import RathalOS.AddOutcomes
import RathalOS.Placement

/-!
What add_file does to a consistent image. A failed call writes only to data
blocks that were free. A successful one puts a new inode into a free slot, with
the blocks the copying loops took; everything another file owns stays as it was,
so the image is consistent again.
-/
namespace RathalOS.AddedFiles

open ByteMemory ByteFile Blocks Bitmaps CStrings Superblocks Inodes FileAccess FirstFit Ownership
open Images EmptyImages WriteBack AddFile Reservations Allocation CopyLoops AddOutcomes Placement

/-- At most the contents of free data blocks differ. -/
def Scribbled (sb : Superblock) (m m' : Memory) : Prop :=
  ∀ a, (∀ b < sb.datablockCount, dataBit sb m b = false →
    a / sb.blockSize ≠ sb.datablocksStart + b) → m' a = m a

/-- The image m' is the image m with n bytes of f added as a file in slot i. -/
structure Added (stale : Memory) (sb : Superblock) (f : File) (n : ℕ) (filename : Memory) (i : ℕ)
    (data tables : List ℕ) (m m' : Memory) : Prop where
  slot_lt : i < sb.inodeCount
  slot_free : inodeBit sb m i = false
  head : ∀ a < sb.blockSize, m' a = m a
  number : (inodeAt sb m' i).number.toNat = i
  name : (inodeAt sb m' i).shownName = cut 31 filename
  size : (inodeAt sb m' i).size.toNat = n
  direct : ∀ k : Fin 4, ((inodeAt sb m' i).directPtr k).toNat = data.getD k 0
  indirect : ∀ k : Fin 9, ((inodeAt sb m' i).indirectPtr k).toNat = tables.getD k 0
  slots : ∀ j < sb.inodeCount, j ≠ i → ∀ k < inodeSize,
    m' (sb.blockSize * sb.inodeStart + inodeSize * j + k) =
      m (sb.blockSize * sb.inodeStart + inodeSize * j + k)
  inodeBits : ∀ j < sb.inodeCount, inodeBit sb m' j = true ↔ inodeBit sb m j = true ∨ j = i
  dataBits : ∀ b < sb.datablockCount,
    dataBit sb m' b = true ↔ dataBit sb m b = true ∨ b ∈ data ++ tables
  distinct : (data ++ tables).Nodup
  fresh : ∀ b ∈ data ++ tables, b < sb.datablockCount ∧ dataBit sb m b = false
  length : data.length = blocksFor sb (intOfUint n).toNat
  tables_le : tables.length ≤ 9
  room : data.length ≤ 4 + tables.length * (sb.blockSize / 2)
  needed : ∀ i < tables.length, 4 + i * (sb.blockSize / 2) < data.length
  kept : ∀ b, b ≠ 0 → b ∉ data ++ tables → ∀ t < sb.blockSize,
    blockData sb m' b t = blockData sb m b t
  stored : ∀ k < data.length, ∀ t < sb.blockSize,
    blockData sb m' (data.getD k 0) t =
      copiedByte stale f sb.blockSize (intOfUint n).toNat k t
  listed : ∀ i < tables.length, ∀ j < sb.blockSize / 2,
    (read16 (blockData sb m' (tables.getD i 0)) (2 * j)).toNat =
      data.getD (4 + i * (sb.blockSize / 2) + j) 0

section Outcome

variable {stale : Memory} {sb : Superblock} {fs f : File} {n : ℕ}

theorem Scribbled.refl (sb : Superblock) (m : Memory) : Scribbled sb m m := fun _ _ => rfl

/-- Block 0 is reserved, so a free block is never block 0. -/
theorem dataBit_zero (hc : Consistent sb fs) : dataBit sb fs.bytes 0 = true :=
  (hc.blocks.held_iff 0 hc.layout.datablockCount_pos).mpr (Or.inl rfl)

theorem scribbled_of_progress {data tables : List ℕ} {full : ℕ} {s : CopyState}
    (h : Progress stale sb (dataBit sb fs.bytes) fs f (intOfUint n) data tables full s) :
    Scribbled sb fs.bytes s.fs.bytes := by
  intro a ha
  apply h.frame
  intro b hb
  obtain ⟨hlt, hclear⟩ := h.fresh b hb
  exact ha b hlt hclear

section Pointers

variable {filename : Memory} {data tables : List ℕ} {log : Log} {s : CopyState} {i : ℕ}
variable {ib : Bitmap} {itab : InodeTable} {fs' : File}

/-- A table lists the low 16 bits of its share of the data blocks. -/
theorem listed_narrowed {inode : Inode} (hcopied : Copied stale sb fs f n data tables log s)
    (hstored : InodeStored sb fs inode i s ib itab fs') {k j : ℕ}
    (hk : k < tables.length) (h0 : tables.getD k 0 ≠ 0) (hj : j < sb.blockSize / 2) :
    read16 (blockData sb fs'.bytes (tables.getD k 0)) (2 * j) =
      BitVec.ofNat 16 (data.getD (4 + k * (sb.blockSize / 2) + j) 0) := by
  rw [hstored.written.block h0]
  exact hcopied.progress.listed k hk j hj

/-- With all blocks from 1 to 65535 the blocks taken are the pointers of an inode that holds
only these. -/
theorem placed_of_copied (filename : Memory) {inode : Inode}
    (hcopied : Copied stale sb fs f n data tables log s)
    (hstored : InodeStored sb fs inode i s ib itab fs')
    (hsmall : ∀ b ∈ data ++ tables, b ≠ 0 ∧ b < 65536) :
    Placed sb fs'.bytes (newInode filename i n (narrowed data) (narrowed tables)) data tables := by
  have hdata : ∀ k, (BitVec.ofNat 16 (data.getD k 0)).toNat = data.getD k 0 :=
    ofNat_getD_toNat fun b hb => (hsmall b (List.mem_append_left _ hb)).2
  have htables : ∀ k, (BitVec.ofNat 16 (tables.getD k 0)).toNat = tables.getD k 0 :=
    ofNat_getD_toNat fun b hb => (hsmall b (List.mem_append_right _ hb)).2
  constructor
  case direct =>
    intro k
    exact hdata k
  case indirect =>
    intro k
    exact htables k
  case distinct => exact hcopied.progress.distinct
  case nonzero =>
    intro b hb
    exact (hsmall b hb).1
  case tables_le => exact hcopied.tables_le
  case room => exact hcopied.room
  case listed =>
    intro k hk j hj
    rw [listed_narrowed hcopied hstored hk
      (hsmall _ (List.mem_append_right _ (getD_mem hk))).1 hj]
    exact hdata _

/-- In a slot that was empty these are all the pointers of the file. -/
theorem placed_of_stored (hcopied : Copied stale sb fs f n data tables log s)
    (hstored : Stored sb fs filename n i data tables s ib itab fs') (hi : i < sb.inodeCount)
    (hsmall : ∀ b ∈ data ++ tables, b ≠ 0 ∧ b < 65536) :
    Placed sb fs'.bytes (inodeAt sb fs'.bytes i) data tables := by
  rw [hstored.inodeAt_self hi]
  exact placed_of_copied filename hcopied hstored hsmall

end Pointers

/-- A finished copy whose metadata has been written back is an added file, on any
image with block 0 marked. -/
theorem added_of_copied (hl : Layout sb) (hcount : sb.inodeCount ≤ 65535)
    (hblocks : sb.datablockCount ≤ 65536) (hzero : dataBit sb fs.bytes 0 = true)
    {filename : Memory} {data tables : List ℕ} {log : Log} {s : CopyState} {i : ℕ} {ib : Bitmap}
    {itab : InodeTable} {fs' : File} (hcopied : Copied stale sb fs f n data tables log s)
    (hstored : Stored sb fs filename n i data tables s ib itab fs')
    (hn : n < 2 ^ 32) (hdone : ¬ 0 < s.dataLeft) (hi : i < sb.inodeCount)
    (hclear : inodeBit sb fs.bytes i = false) :
    Added stale sb f n filename i data tables fs.bytes fs'.bytes := by
  have h := hcopied.progress
  have hback := hstored.written.writtenBack hl
  have hbounds := hl.blockSize_bounds
  have hbs : 0 < sb.blockSize := by omega
  have hinode := hstored.inodeAt_self hi
  have hpos : ∀ b ∈ data ++ tables, b ≠ 0 := by
    intro b hb h0
    have hclear := (h.fresh b hb).2
    rw [h0, hzero] at hclear
    exact Bool.noConfusion hclear
  -- with at most 65536 blocks no number loses a bit
  have hplaced : Placed sb fs'.bytes (inodeAt sb fs'.bytes i) data tables := by
    refine placed_of_stored hcopied hstored hi fun b hb => ⟨hpos b hb, ?_⟩
    exact Nat.lt_of_lt_of_le (h.fresh b hb).1 hblocks
  have hlength : data.length = blocksFor sb (intOfUint n).toNat := by
    have hall := h.data_le
    have hmore := mt (h.more_iff hbs).mpr hdone
    omega
  constructor
  case slot_lt => exact hi
  case slot_free => exact hclear
  case head =>
    intro a ha
    rw [hback.head a ha]
    apply h.frame
    intro b hb
    rw [Nat.div_eq_of_lt ha]
    have := hpos b hb
    omega
  case number =>
    rw [hinode]
    change (BitVec.ofInt 16 (i : ℤ)).toNat = i
    rw [BitVec.ofInt_natCast, BitVec.toNat_ofNat]
    omega
  case name => rw [hinode, newInode_shownName]
  case size =>
    rw [hinode]
    change (BitVec.ofNat 32 n).toNat = n
    rw [BitVec.toNat_ofNat]
    omega
  case direct => exact hplaced.direct
  case indirect => exact hplaced.indirect
  case slots =>
    intro j hj hji k hk
    exact hstored.slot hj hji hk
  case inodeBits =>
    intro j hj
    rw [hback.inodeBit j hj, hstored.inodeBitmap, reserve]
    by_cases hji : j = i
    · rw [hji, Function.update_self]
      exact iff_of_true rfl (Or.inr rfl)
    · rw [Function.update_of_ne hji, bitmapOf_test hj]
      simp only [hji, or_false]
      rfl
  case dataBits =>
    intro b hb
    rw [hback.dataBit b hb]
    exact h.held_iff b hb
  case distinct => exact h.distinct
  case fresh => exact h.fresh
  case length => exact hlength
  case tables_le => exact hcopied.tables_le
  case room => exact hcopied.room
  case needed =>
    intro k hk
    rw [hlength]
    exact h.tables_needed k hk
  case kept =>
    intro b hb0 hb
    exact kept_block hbs hcopied hstored hb0 hb
  case stored =>
    intro k hk t ht
    rw [hback.block _ (hpos _ (List.mem_append_left _ (getD_mem hk)))]
    exact h.stored k hk t ht
  case listed => exact hplaced.listed

theorem added_of_stored (hc : Consistent sb fs) {filename : Memory} {data tables : List ℕ}
    {log : Log} {s : CopyState} {i : ℕ} {ib : Bitmap} {itab : InodeTable} {fs' : File}
    (hcopied : Copied stale sb fs f n data tables log s)
    (hstored : Stored sb fs filename n i data tables s ib itab fs')
    (hn : n < 2 ^ 32) (hdone : ¬ 0 < s.dataLeft) (hi : i < sb.inodeCount)
    (hclear : inodeBit sb fs.bytes i = false) :
    Added stale sb f n filename i data tables fs.bytes fs'.bytes :=
  added_of_copied hc.layout hc.inodeCount_le hc.datablockCount_le (dataBit_zero hc) hcopied hstored
    hn hdone hi hclear

/-- add_file always returns, and this is what each outcome means. -/
theorem addFile_spec (hc : Consistent sb fs) (stale filename : Memory) (f : File)
    (hn : n < 2 ^ 32) :
    (lookup filename (inodeTableOf sb fs.bytes) ≠ none ∧ ∃ fs',
      addFile stale f filename n fs = .ok (.alreadyExists, fs') ∧
      fs.size ≤ fs'.size ∧ Scribbled sb fs.bytes fs'.bytes) ∨
    (lookup filename (inodeTableOf sb fs.bytes) = none ∧ ∃ outcome fs',
      addFile stale f filename n fs = .ok (outcome, fs') ∧
      (outcome = .noInode ∨ outcome = .notEnoughBlocks) ∧
      fs.size ≤ fs'.size ∧ Scribbled sb fs.bytes fs'.bytes) ∨
    (lookup filename (inodeTableOf sb fs.bytes) = none ∧ ∃ i data tables fs',
      addFile stale f filename n fs = .ok (.added, fs') ∧
      fs.size ≤ fs'.size ∧ Added stale sb f n filename i data tables fs.bytes fs'.bytes) := by
  rcases addFileLog_spec hc.accessible stale filename f hn with ⟨hfound, p, hrun⟩ |
    ⟨hfound, -, p, hrun⟩ | ⟨hfound, i, hi, hclear, data, tables, log, s, hcopied, hend⟩
  · exact Or.inl ⟨hfound, _, addFile_of_log hrun, Nat.le_refl _, Scribbled.refl _ _⟩
  · exact Or.inr (Or.inl ⟨hfound, _, _, addFile_of_log hrun, Or.inl rfl, Nat.le_refl _,
      Scribbled.refl _ _⟩)
  · have h := hcopied.progress
    rcases hend with ⟨-, hrun⟩ | ⟨hdone, ib, itab, fs', hrun, hstored⟩
    · exact Or.inr (Or.inl ⟨hfound, _, _, addFile_of_log hrun, Or.inr rfl, h.grows,
        scribbled_of_progress h⟩)
    · exact Or.inr (Or.inr ⟨hfound, i, data, tables, fs', addFile_of_log hrun,
        Nat.le_trans h.grows hstored.grows,
        added_of_stored hc hcopied hstored hn hdone hi hclear⟩)

end Outcome

section NewFile

variable {stale : Memory} {sb : Superblock} {f : File} {n : ℕ} {filename : Memory} {i : ℕ}
variable {data tables : List ℕ} {m m' : Memory}

/-- The blocks the loops took are the blocks of the new file. -/
theorem Added.placed (h : Added stale sb f n filename i data tables m m')
    (hzero : dataBit sb m 0 = true) : Placed sb m' (inodeAt sb m' i) data tables where
  direct := h.direct
  indirect := h.indirect
  distinct := h.distinct
  nonzero := by
    intro b hb h0
    have hclear := (h.fresh b hb).2
    rw [h0, hzero] at hclear
    exact Bool.noConfusion hclear
  tables_le := h.tables_le
  room := h.room
  listed := h.listed

theorem Added.sizeExact (h : Added stale sb f n filename i data tables m m')
    (hzero : dataBit sb m 0 = true) (hn : n < 2 ^ 31) :
    SizeExact sb m' (inodeAt sb m' i) := by
  have hlength := h.length
  rw [intOfUint_of_lt hn, Int.toNat_natCast] at hlength
  have hplaced := h.placed hzero
  have hne := hplaced.nonzero
  have hdata : ∀ k, data.getD k 0 ≠ 0 ↔ k < data.length := by
    intro k
    refine ⟨fun hk => ?_, fun hk => hne _ (List.mem_append_left _ (getD_mem hk))⟩
    by_contra hle
    exact hk (List.getD_eq_default _ 0 (by omega))
  have hroom := h.room
  constructor
  · rw [h.size, ← hlength]
    have hmax := Nat.mul_le_mul_right (sb.blockSize / 2) h.tables_le
    omega
  · intro k hk
    rw [h.size, ← hlength, hplaced.directAt hk, hdata]
  · intro k hk
    rw [h.size, ← hlength, hplaced.indirectAt]
    by_cases hlt : k < tables.length
    · exact iff_of_true (hne _ (List.mem_append_right _ (getD_mem hlt))) (h.needed k hlt)
    · have hmono := Nat.mul_le_mul_right (sb.blockSize / 2) (Nat.le_of_not_lt hlt)
      exact iff_of_false (fun hk => hk (List.getD_eq_default _ 0 (by omega))) (by omega)
  · intro k hk j hj
    rw [h.size, ← hlength, hplaced.entryAt hj]
    by_cases hlt : k < tables.length
    · rw [if_pos hlt, hdata]
    · have hmono := Nat.mul_le_mul_right (sb.blockSize / 2) (Nat.le_of_not_lt hlt)
      rw [if_neg hlt]
      exact iff_of_false (fun hk => hk rfl) (by omega)

/-- The bytes of the new file are the contents. -/
theorem Added.fileByte {c : List Byte}
    (h : Added stale sb (File.ofList c) c.length filename i data tables m m')
    (hzero : dataBit sb m 0 = true) (hbs : 512 ≤ sb.blockSize) (hlen : c.length < 2 ^ 31)
    {x : ℕ} (hx : x < c.length) :
    fileByte sb m' (inodeAt sb m' i) x = c.getD x 0 := by
  have hn : (intOfUint c.length).toNat = c.length := by
    rw [intOfUint_of_lt hlen, Int.toNat_natCast]
  have hk : x / sb.blockSize < data.length := by
    rw [h.length, hn, lt_blocksFor_iff (by omega)]
    have := Nat.div_mul_le_self x sb.blockSize
    omega
  have hdiv : x / sb.blockSize * sb.blockSize + x % sb.blockSize = x := Nat.div_add_mod' _ _
  rw [Images.fileByte, (h.placed hzero).fileBlock hbs hk,
    h.stored _ hk _ (Nat.mod_lt _ (by omega)), hn,
    copiedByte, hdiv, if_pos hx, File.ofList_pos, Nat.zero_add, File.ofList_size, if_pos hx]
  rfl

end NewFile

section FailedCalls

variable {sb : Superblock} {fs fs' : File}

theorem Scribbled.metadata {m m' : Memory} (h : Scribbled sb m m') (hbs : 0 < sb.blockSize)
    {a : ℕ} (ha : a < sb.blockSize * sb.datablocksStart) : m' a = m a := by
  apply h
  intro b _ _
  have hdiv : a / sb.blockSize < sb.datablocksStart := by
    rw [Nat.div_lt_iff_lt_mul hbs, Nat.mul_comm]
    exact ha
  omega

theorem inode_offset_lt (hr : Regions sb) {j k : ℕ} (hj : j < sb.inodeCount)
    (hk : k < inodeSize) :
    sb.blockSize * sb.inodeStart + inodeSize * j + k < sb.blockSize * sb.datablocksStart := by
  obtain ⟨-, -, -, h4, -⟩ := hr.offsets
  have hfit := hr.inodes_fit
  rw [Nat.mul_comm sb.inodeBlockCount] at hfit
  simp only [inodeSize] at hk hfit ⊢
  omega

theorem Scribbled.inodeAt (h : Scribbled sb fs.bytes fs'.bytes) (hr : Regions sb) {j : ℕ}
    (hj : j < sb.inodeCount) : inodeAt sb fs'.bytes j = inodeAt sb fs.bytes j := by
  have hbounds := hr.blockSize_bounds
  apply inodeAt_congr
  intro k hk
  exact h.metadata (by omega) (inode_offset_lt hr hj hk)

theorem Scribbled.sameFile (hc : Consistent sb fs) (h : Scribbled sb fs.bytes fs'.bytes) {j : ℕ}
    (hj : Live sb fs.bytes j) : SameFile sb fs.bytes fs'.bytes j where
  inode := h.inodeAt hc.layout.regions hj.1
  blocks := by
    have hbounds := hc.layout.blockSize_bounds
    intro b howned
    rcases howned with ⟨-, p, rfl⟩
    apply blockData_frame (by omega)
    intro a ha
    apply h
    intro b' _ hclear heq
    have hheld := hc.blocks.held_of_named (p := p) hj
    have hbb : b' = pointer sb fs.bytes (Images.inodeAt sb fs.bytes j) p := by omega
    rw [← hbb, hclear] at hheld
    exact Bool.noConfusion hheld

/-- A failed call leaves the image consistent. -/
theorem Scribbled.consistent (hc : Consistent sb fs) (h : Scribbled sb fs.bytes fs'.bytes)
    (hsize : fs.size ≤ fs'.size) : Consistent sb fs' := by
  have hl := hc.layout
  have hbounds := hl.blockSize_bounds
  have hbs : 0 < sb.blockSize := by omega
  obtain ⟨h1, h2, h3, h4, -⟩ := hl.regions.offsets
  obtain ⟨hib, hdb, -⟩ := hl.tables_fit
  have hinode : ∀ j < sb.inodeCount, Images.inodeAt sb fs'.bytes j = Images.inodeAt sb fs.bytes j :=
    fun j hj => h.inodeAt hl.regions hj
  have hlive : ∀ j, Live sb fs'.bytes j ↔ Live sb fs.bytes j := by
    intro j
    refine and_congr_right fun hj => ?_
    rw [hinode j hj]
  have hhead : ∀ a < sb.blockSize, fs'.bytes a = fs.bytes a :=
    fun a ha => h.metadata hbs (by omega)
  have hslots : ∀ j < sb.inodeCount, SlotConsistent sb fs'.bytes j := by
    intro j hj
    apply (hc.slot hj).congr (hinode j hj)
    unfold inodeBit bitAt
    rw [h.metadata hbs (by omega)]
  apply hc.of_slots hsize hhead hslots
  apply hc.blocks.congr hlive
  · intro j p hj
    rw [(h.sameFile hc hj).pointer]
  · intro b hb
    unfold dataBit bitAt
    rw [h.metadata hbs (by omega)]

theorem Scribbled.wellFormed (hw : WellFormed sb fs) (h : Scribbled sb fs.bytes fs'.bytes)
    (hsize : fs.size ≤ fs'.size) : WellFormed sb fs' where
  toConsistent := h.consistent hw.toConsistent hsize
  names := by
    intro j k hlj hlk
    rcases hlj with ⟨hj, hlj⟩
    rcases hlk with ⟨hk, hlk⟩
    rw [h.inodeAt hw.layout.regions hj] at hlj ⊢
    rw [h.inodeAt hw.layout.regions hk] at hlk ⊢
    exact hw.names j k ⟨hj, hlj⟩ ⟨hk, hlk⟩
  sizes := by
    intro j hlj
    rcases hlj with ⟨hj, hlj⟩
    rw [h.inodeAt hw.layout.regions hj] at hlj
    exact (h.sameFile hw.toConsistent ⟨hj, hlj⟩).sizeExact (hw.sizes j ⟨hj, hlj⟩)

/-- A call that did not add the file only scribbled into free blocks. -/
theorem scribbled_of_addFile {stale filename : Memory} {f : File} {n : ℕ} {outcome : AddOutcome}
    (hc : Consistent sb fs) (hn : n < 2 ^ 32)
    (hadd : addFile stale f filename n fs = .ok (outcome, fs')) (hfail : outcome ≠ .added) :
    fs.size ≤ fs'.size ∧ Scribbled sb fs.bytes fs'.bytes := by
  obtain ⟨-, fs'', hok, hrest⟩ | ⟨-, outcome', fs'', hok, -, hrest⟩ | ⟨-, i, data, tables, fs'',
    hok, -⟩ := addFile_spec hc stale filename f hn
  · rw [hadd] at hok
    cases hok
    exact hrest
  · rw [hadd] at hok
    cases hok
    exact hrest
  · rw [hadd] at hok
    cases hok
    exact absurd rfl hfail

/-- The metadata of an image and the blocks of its files are byte for byte the same. -/
structure Untouched (sb : Superblock) (m m' : Memory) : Prop where
  superblock : ∀ a < sb.blockSize, m' a = m a
  inodeBitmap : ∀ k < sb.blockSize * sb.inodeBitmapBlockCount,
    m' (sb.blockSize * sb.inodeBitmapStart + k) = m (sb.blockSize * sb.inodeBitmapStart + k)
  datablockBitmap : ∀ k < sb.blockSize * sb.datablockBitmapBlockCount,
    m' (sb.blockSize * sb.datablockBitmapStart + k) =
      m (sb.blockSize * sb.datablockBitmapStart + k)
  inodeTable : ∀ k < sb.blockSize * sb.inodeBlockCount,
    m' (sb.blockSize * sb.inodeStart + k) = m (sb.blockSize * sb.inodeStart + k)
  blocks : ∀ j, Live sb m j → ∀ b, Owns sb m (inodeAt sb m j) b →
    ∀ t < sb.blockSize, blockData sb m' b t = blockData sb m b t

/-- Whatever the reason, a failed call leaves the file system as it was. -/
theorem addFile_failed {stale filename : Memory} {f : File} {n : ℕ} {outcome : AddOutcome}
    (hc : Consistent sb fs) (hn : n < 2 ^ 32)
    (hadd : addFile stale f filename n fs = .ok (outcome, fs')) (hfail : outcome ≠ .added) :
    Untouched sb fs.bytes fs'.bytes := by
  obtain ⟨-, hscribbled⟩ := scribbled_of_addFile hc hn hadd hfail
  have hbounds := hc.layout.blockSize_bounds
  obtain ⟨h1, h2, h3, h4, -⟩ := hc.layout.regions.offsets
  have hmeta : ∀ a < sb.blockSize * sb.datablocksStart, fs'.bytes a = fs.bytes a :=
    fun a ha => hscribbled.metadata (by omega) ha
  constructor
  case superblock =>
    intro a ha
    exact hmeta a (by omega)
  case inodeBitmap =>
    intro k hk
    exact hmeta _ (by omega)
  case datablockBitmap =>
    intro k hk
    exact hmeta _ (by omega)
  case inodeTable =>
    intro k hk
    exact hmeta _ (by omega)
  case blocks =>
    intro j hj
    exact (hscribbled.sameFile hc hj).blocks

end FailedCalls

section SuccessfulCalls

variable {stale : Memory} {sb : Superblock} {fs fs' f : File} {n : ℕ} {filename : Memory}
variable {i : ℕ} {data tables : List ℕ}

/-- The slot was not in use. -/
theorem Added.not_live (hc : Consistent sb fs)
    (h : Added stale sb f n filename i data tables fs.bytes fs'.bytes) : ¬ Live sb fs.bytes i := by
  intro hlive
  rcases hlive with ⟨hi, hlive⟩
  rw [(inodeAt_of_clear hc hi h.slot_free).2] at hlive
  exact hlive rfl

theorem Added.inodeAt (h : Added stale sb f n filename i data tables fs.bytes fs'.bytes) {j : ℕ}
    (hj : j < sb.inodeCount) (hji : j ≠ i) :
    inodeAt sb fs'.bytes j = inodeAt sb fs.bytes j := inodeAt_congr (h.slots j hj hji)

theorem Added.number_ne_zero (hc : Consistent sb fs)
    (h : Added stale sb f n filename i data tables fs.bytes fs'.bytes) :
    (Images.inodeAt sb fs'.bytes i).number ≠ 0 := by
  intro h0
  have hnumber := h.number
  rw [h0] at hnumber
  exact (inodeAt_of_clear hc h.slot_lt h.slot_free).1 hnumber.symm

theorem Added.live_iff (hc : Consistent sb fs)
    (h : Added stale sb f n filename i data tables fs.bytes fs'.bytes) (j : ℕ) :
    Live sb fs'.bytes j ↔ Live sb fs.bytes j ∨ j = i := by
  by_cases hji : j = i
  · rw [hji]
    exact iff_of_true ⟨h.slot_lt, h.number_ne_zero hc⟩ (Or.inr rfl)
  · rw [or_iff_left hji]
    refine and_congr_right fun hj => ?_
    rw [h.inodeAt hj hji]

/-- Every other file keeps its inode and its blocks. -/
theorem Added.sameFile (hc : Consistent sb fs)
    (h : Added stale sb f n filename i data tables fs.bytes fs'.bytes) {j : ℕ}
    (hj : Live sb fs.bytes j) :
    SameFile sb fs.bytes fs'.bytes j where
  inode := h.inodeAt hj.1 fun hji => h.not_live hc (hji ▸ hj)
  blocks := by
    intro b howned
    rcases howned with ⟨hb, p, rfl⟩
    apply h.kept _ hb
    intro hmem
    have hclear := (h.fresh _ hmem).2
    rw [hc.blocks.held_of_named (p := p) hj] at hclear
    exact Bool.noConfusion hclear

/-- A successful call leaves the image consistent. -/
theorem Added.consistent (hc : Consistent sb fs)
    (h : Added stale sb f n filename i data tables fs.bytes fs'.bytes)
    (hsize : fs.size ≤ fs'.size) : Consistent sb fs' := by
  have hbs : 512 ≤ sb.blockSize := hc.layout.blockSize_bounds.1
  have hzero := dataBit_zero hc
  have hslots : ∀ j < sb.inodeCount, SlotConsistent sb fs'.bytes j := by
    intro j hj
    have hbits := h.inodeBits j hj
    by_cases hji : j = i
    · subst hji
      exact ⟨Or.inr h.number, fun hfree => absurd hfree (h.number_ne_zero hc),
        iff_of_true (hbits.mpr (Or.inr rfl)) (Or.inr h.number)⟩
    · rw [or_iff_left hji] at hbits
      exact (hc.slot hj).congr (h.inodeAt hj hji) (Bool.eq_iff_iff.mpr hbits)
  apply hc.of_slots hsize h.head hslots
  apply hc.blocks.grant i (h.live_iff hc) (h.not_live hc)
  · intro j p hj
    rw [(h.sameFile hc hj).pointer]
  · intro p q hp hpq
    exact (h.placed hzero).pointer_inj hp hpq
  · intro p
    by_cases hp : pointer sb fs'.bytes (Images.inodeAt sb fs'.bytes i) p = 0
    · rw [hp]
      exact hc.layout.datablockCount_pos
    · exact (h.fresh _ (((h.placed hzero).owns_iff hbs _).mp ⟨hp, p, rfl⟩)).1
  · intro p hp
    exact (h.fresh _ (((h.placed hzero).owns_iff hbs _).mp ⟨hp, p, rfl⟩)).2
  · intro b hb
    rw [h.dataBits b hb, ← (h.placed hzero).owns_iff hbs]
    refine or_congr_right ⟨?_, ?_⟩
    · intro hnamed
      rcases hnamed with ⟨hne, p, rfl⟩
      exact ⟨p, hne, rfl⟩
    · intro hnamed
      rcases hnamed with ⟨p, hne, rfl⟩
      exact ⟨hne, p, rfl⟩

/-- With a name that was not found, names stay distinct. -/
theorem Added.names (h : Added stale sb f n filename i data tables fs.bytes fs'.bytes)
    (hfresh : lookup filename (inodeTableOf sb fs.bytes) = none)
    (hn : NamesDistinct sb fs.bytes) : NamesDistinct sb fs'.bytes := by
  refine hn.setSlot (fun j hj hji => h.inodeAt hj hji) fun _ j hj => ?_
  rw [h.name]
  exact lookup_none_iff.mp hfresh j hj

theorem Added.wellFormed (hw : WellFormed sb fs)
    (h : Added stale sb f n filename i data tables fs.bytes fs'.bytes)
    (hsize : fs.size ≤ fs'.size) (hn : n < 2 ^ 31)
    (hfresh : lookup filename (inodeTableOf sb fs.bytes) = none) :
    WellFormed sb fs' where
  toConsistent := h.consistent hw.toConsistent hsize
  names := h.names hfresh hw.names
  sizes := by
    intro j hj
    rcases (h.live_iff hw.toConsistent j).mp hj with hj' | rfl
    · exact (h.sameFile hw.toConsistent hj').sizeExact (hw.sizes j hj')
    · exact h.sizeExact (dataBit_zero hw.toConsistent) hn

/-- The new file is the one found under its name. -/
theorem Added.lookup (hc : Consistent sb fs)
    (h : Added stale sb f n filename i data tables fs.bytes fs'.bytes)
    (hfresh : lookup filename (inodeTableOf sb fs.bytes) = none) :
    lookup filename (inodeTableOf sb fs'.bytes) = some i := by
  have hlive : Live sb fs'.bytes i := (h.live_iff hc i).mpr (Or.inr rfl)
  cases hfound : FileAccess.lookup filename (inodeTableOf sb fs'.bytes) with
  | none => exact absurd h.name (lookup_none_iff.mp hfound i hlive)
  | some j =>
    obtain ⟨hj, hname⟩ := lookup_live hfound
    rcases (h.live_iff hc j).mp hj with hold | rfl
    · rw [(h.sameFile hc hold).inode] at hname
      exact absurd hname (lookup_none_iff.mp hfresh j hold)
    · rfl

/-- A call that succeeded added a file under a name that was not found. -/
theorem added_of_addFile {sb : Superblock} {fs fs' f : File} {n : ℕ} {stale filename : Memory}
    (hc : Consistent sb fs) (hn : n < 2 ^ 32)
    (hadd : addFile stale f filename n fs = .ok (.added, fs')) :
    lookup filename (inodeTableOf sb fs.bytes) = none ∧ fs.size ≤ fs'.size ∧
      ∃ i data tables, Added stale sb f n filename i data tables fs.bytes fs'.bytes := by
  obtain ⟨-, fs'', hok, -⟩ | ⟨-, outcome, fs'', hok, hfail, -⟩ |
    ⟨hnone, i, data, tables, fs'', hok, hsize, hadded⟩ := addFile_spec hc stale filename f hn
  · rw [hadd] at hok
    simp at hok
  · rw [hadd] at hok
    simp only [Except.ok.injEq, Prod.mk.injEq] at hok
    rw [← hok.1] at hfail
    simp at hfail
  · rw [hadd] at hok
    simp only [Except.ok.injEq, Prod.mk.injEq, true_and] at hok
    rw [hok]
    exact ⟨hnone, hsize, i, data, tables, hadded⟩

/-- A successful add_file keeps the image consistent, takes free blocks only, and
leaves every other file byte for byte as it was. -/
theorem addFile_preserves {sb : Superblock} {fs fs' f : File} {n : ℕ} {stale filename : Memory}
    (hc : Consistent sb fs) (hnames : NamesDistinct sb fs.bytes) (hn : n < 2 ^ 32)
    (hadd : addFile stale f filename n fs = .ok (.added, fs')) :
    Consistent sb fs' ∧ NamesDistinct sb fs'.bytes ∧
    ∃ i, ¬ Live sb fs.bytes i ∧ (∀ j, Live sb fs'.bytes j ↔ Live sb fs.bytes j ∨ j = i) ∧
      (inodeAt sb fs'.bytes i).shownName = cut 31 filename ∧
      (inodeAt sb fs'.bytes i).size.toNat = n ∧
      (∀ b, Owns sb fs'.bytes (inodeAt sb fs'.bytes i) b → dataBit sb fs.bytes b = false) ∧
      ∀ j, Live sb fs.bytes j →
        (∀ k < inodeSize, fs'.bytes (sb.blockSize * sb.inodeStart + inodeSize * j + k) =
          fs.bytes (sb.blockSize * sb.inodeStart + inodeSize * j + k)) ∧
        ∀ b, Owns sb fs.bytes (inodeAt sb fs.bytes j) b → ∀ t < sb.blockSize,
          blockData sb fs'.bytes b t = blockData sb fs.bytes b t := by
  obtain ⟨hnone, hsize, i, data, tables, hadded⟩ := added_of_addFile hc hn hadd
  have howns := (hadded.placed (dataBit_zero hc)).owns_iff hc.layout.blockSize_bounds.1
  refine ⟨hadded.consistent hc hsize, hadded.names hnone hnames, i, hadded.not_live hc,
    hadded.live_iff hc, hadded.name, hadded.size, ?_, ?_⟩
  · intro b hb
    exact (hadded.fresh b ((howns b).mp hb)).2
  · intro j hj
    refine ⟨hadded.slots j hj.1 ?_, (hadded.sameFile hc hj).blocks⟩
    intro heq
    subst heq
    exact hadded.not_live hc hj

end SuccessfulCalls

section LargeFile

/-- A host file of n zeros. -/
def zeroFile (n : ℕ) : File where
  bytes := fun _ => 0
  size := n
  pos := 0
  eof := fun _ _ => rfl

/-- A name of one character. -/
def nameOf (b : Byte) : Memory := fun k => if k = 0 then b else 0

/-- The image a call of add_file left. -/
def imageOf (r : Except Fault (AddOutcome × File)) : File :=
  match r with
  | .ok (_, fs) => fs
  | .error _ => File.empty

def succeeded (r : Except Fault (AddOutcome × File)) : Bool :=
  match r with
  | .ok (.added, _) => true
  | _ => false

theorem eq_of_succeeded {r : Except Fault (AddOutcome × File)} (h : succeeded r = true) :
    r = .ok (.added, imageOf r) := by
  match r, h with
  | .ok (.added, fs), _ => rfl

/-- The small image with a file `a` of five blocks, the last of which needs a table. -/
def largeImage : File :=
  imageOf (addFile (fun _ => 0) (zeroFile 2560) (nameOf 97) 2560 (emptyImage smallSuperblock))

theorem largeImage_added : addFile (fun _ => 0) (zeroFile 2560) (nameOf 97) 2560
    (emptyImage smallSuperblock) = .ok (.added, largeImage) :=
  eq_of_succeeded (by decide +kernel)

theorem largeImage_wellFormed : WellFormed smallSuperblock largeImage := by
  obtain ⟨hnone, hsize, i, data, tables, hadded⟩ :=
    added_of_addFile smallImage_wellFormed.toConsistent (by omega) largeImage_added
  exact hadded.wellFormed smallImage_wellFormed hsize (by omega) hnone

/-- Adding a second file to it. -/
theorem addFile_preserves_second : ∃ fs',
    addFile (fun _ => 0) (zeroFile 100) (nameOf 98) 100 largeImage = .ok (.added, fs') ∧
    Consistent smallSuperblock fs' ∧ NamesDistinct smallSuperblock fs'.bytes := by
  have hadd : addFile (fun _ => 0) (zeroFile 100) (nameOf 98) 100 largeImage =
      .ok (.added, imageOf (addFile (fun _ => 0) (zeroFile 100) (nameOf 98) 100 largeImage)) :=
    eq_of_succeeded (by decide +kernel)
  obtain ⟨hc, hnames, -⟩ := addFile_preserves largeImage_wellFormed.toConsistent
    largeImage_wellFormed.names (by decide) hadd
  exact ⟨_, hadd, hc, hnames⟩

/-- Adding another five blocks fails after the one free block has been written to. -/
theorem addFile_failed_full : ∃ fs',
    addFile (fun _ => 0) (zeroFile 2560) (nameOf 98) 2560 largeImage =
      .ok (.notEnoughBlocks, fs') ∧
    Untouched smallSuperblock largeImage.bytes fs'.bytes := by
  have houtcome : (addFile (fun _ => 0) (zeroFile 2560) (nameOf 98) 2560 largeImage).map Prod.fst =
      .ok .notEnoughBlocks := by decide +kernel
  match hadd : addFile (fun _ => 0) (zeroFile 2560) (nameOf 98) 2560 largeImage, houtcome with
  | .ok (outcome, fs'), houtcome =>
    cases houtcome
    exact ⟨fs', rfl, addFile_failed largeImage_wellFormed.toConsistent (by decide) hadd
      (by decide)⟩

end LargeFile

end RathalOS.AddedFiles
