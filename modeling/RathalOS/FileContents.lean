import RathalOS.Allocation

/-!
The contents of a file, apart from where they are stored. Two images hold the
same files in the same blocks when they differ only in bytes that one file
stores; then every inode, every pointer and both bitmaps are the same, and one
is well formed if the other is.
-/
namespace RathalOS.FileContents

open ByteMemory ByteFile Bitmaps Superblocks Inodes Images Allocation

/-- An address in a block that stores a part of a file. -/
def Stores (sb : Superblock) (m : Memory) (inode : Inode) (a : ℕ) : Prop :=
  ∃ k < blocksFor sb inode.size.toNat,
    a / sb.blockSize = sb.datablocksStart + fileBlock sb m inode k

/-- The second image is the first with other contents in the file of one inode. -/
structure OtherContents (sb : Superblock) (fs fs' : File) (i : ℕ) : Prop where
  size : fs'.size = fs.size
  rest : ∀ a, ¬ Stores sb fs.bytes (inodeAt sb fs.bytes i) a → fs'.bytes a = fs.bytes a

theorem OtherContents.refl (sb : Superblock) (fs : File) (i : ℕ) : OtherContents sb fs fs i :=
  ⟨rfl, fun _ _ => rfl⟩

section Images

variable {sb : Superblock} {fs fs' : File} {i : ℕ}

/-- The regions before the data blocks. -/
theorem OtherContents.tables (h : OtherContents sb fs fs' i) {a : ℕ}
    (ha : a < sb.blockSize * sb.datablocksStart) : fs'.bytes a = fs.bytes a := by
  refine h.rest a fun hstores => ?_
  obtain ⟨k, -, hblock⟩ := hstores
  have hbefore := Nat.div_lt_of_lt_mul ha
  omega

/-- The data blocks that store no part of the file. -/
theorem OtherContents.block (h : OtherContents sb fs fs' i) {b : ℕ}
    (hb : ∀ k < blocksFor sb (inodeAt sb fs.bytes i).size.toNat,
      fileBlock sb fs.bytes (inodeAt sb fs.bytes i) k ≠ b) {t : ℕ} (ht : t < sb.blockSize) :
    blockData sb fs'.bytes b t = blockData sb fs.bytes b t := by
  refine h.rest _ fun hstores => ?_
  obtain ⟨k, hk, hblock⟩ := hstores
  rw [(block_index (by omega) b ht).1] at hblock
  have hne := hb k hk
  omega

theorem OtherContents.inode (h : OtherContents sb fs fs' i) (hl : Layout sb) {j : ℕ}
    (hj : j < sb.inodeCount) : inodeAt sb fs'.bytes j = inodeAt sb fs.bytes j := by
  obtain ⟨-, -, hit⟩ := hl.tables_fit
  obtain ⟨-, -, -, hend, -⟩ := hl.regions.offsets
  apply inodeAt_congr
  intro t ht
  apply h.tables
  simp only [inodeSize] at hit ht ⊢
  omega

theorem OtherContents.live_iff (h : OtherContents sb fs fs' i) (hl : Layout sb) (j : ℕ) :
    Live sb fs'.bytes j ↔ Live sb fs.bytes j := by
  refine and_congr_right fun hj => ?_
  rw [h.inode hl hj]

theorem OtherContents.dataBit (h : OtherContents sb fs fs' i) (hl : Layout sb) {b : ℕ}
    (hb : b < sb.datablockCount) :
    Images.dataBit sb fs'.bytes b = Images.dataBit sb fs.bytes b := by
  obtain ⟨-, hdb, -⟩ := hl.tables_fit
  obtain ⟨-, -, h3, h4, -⟩ := hl.regions.offsets
  unfold Images.dataBit bitAt
  rw [h.tables (by omega)]

theorem OtherContents.inodeBit (h : OtherContents sb fs fs' i) (hl : Layout sb) {j : ℕ}
    (hj : j < sb.inodeCount) :
    Images.inodeBit sb fs'.bytes j = Images.inodeBit sb fs.bytes j := by
  obtain ⟨hib, -, -⟩ := hl.tables_fit
  obtain ⟨-, h2, h3, h4, -⟩ := hl.regions.offsets
  unfold Images.inodeBit bitAt
  rw [h.tables (by omega)]

/-- An indirect block stores no part of a file, so every file has its pointers. -/
theorem OtherContents.pointer (h : OtherContents sb fs fs' i) (hc : Consistent sb fs)
    (hi : Live sb fs.bytes i) {j : ℕ} (hj : Live sb fs.bytes j) :
    Images.pointer sb fs'.bytes (inodeAt sb fs.bytes j) =
      Images.pointer sb fs.bytes (inodeAt sb fs.bytes j) := by
  apply pointer_congr
  intro t ht s hs
  refine h.block (fun k _ hsame => ?_) hs
  rw [fileBlock_eq_pointer] at hsame
  obtain ⟨-, hplace⟩ := hc.blocks.distinct j i (.indirect t) (filePlace sb k) hj hi ht hsame.symm
  rw [filePlace] at hplace
  split at hplace <;> cases hplace

theorem OtherContents.wellFormed (h : OtherContents sb fs fs' i) (hw : WellFormed sb fs)
    (hi : Live sb fs.bytes i) : WellFormed sb fs' := by
  have hc := hw.toConsistent
  have hl := hc.layout
  obtain ⟨h1, h2, h3, h4, -⟩ := hl.regions.offsets
  have hpointer : ∀ j, Live sb fs.bytes j →
      Images.pointer sb fs'.bytes (inodeAt sb fs'.bytes j) =
        Images.pointer sb fs.bytes (inodeAt sb fs.bytes j) := by
    intro j hj
    rw [h.inode hl hj.1]
    exact h.pointer hc hi hj
  refine ⟨hc.of_slots (Nat.le_of_eq h.size.symm) ?head ?slots ?blocks, ?names, ?sizes⟩
  case head =>
    intro a ha
    exact h.tables (by omega)
  case slots =>
    intro j hj
    exact (hc.slot hj).congr (h.inode hl hj) (h.inodeBit hl hj)
  case blocks =>
    refine hc.blocks.congr (h.live_iff hl) (fun j p hj => ?_) fun b hb => h.dataBit hl hb
    rw [hpointer j hj]
  case names =>
    intro j k hj hk hname
    rw [h.inode hl hj.1, h.inode hl hk.1] at hname
    exact hw.names j k ((h.live_iff hl j).mp hj) ((h.live_iff hl k).mp hk) hname
  case sizes =>
    intro j hj
    have hlive := (h.live_iff hl j).mp hj
    rw [h.inode hl hj.1]
    exact (hw.sizes j hlive).congr (h.pointer hc hi hlive)

end Images

/-- An image with one byte replaced. -/
def withByte (fs : File) (a : ℕ) (b : Byte) (h : a < fs.size) : File where
  bytes := Function.update fs.bytes a b
  size := fs.size
  pos := fs.pos
  eof := fun x hx => by
    rw [Function.update_of_ne (by omega)]
    exact fs.eof x hx

theorem withByte_otherContents {sb : Superblock} {fs : File} {i a : ℕ} (b : Byte)
    (h : a < fs.size) (ha : Stores sb fs.bytes (inodeAt sb fs.bytes i) a) :
    OtherContents sb fs (withByte fs a b h) i where
  size := rfl
  rest := fun x hx => Function.update_of_ne (fun hsame => hx (by rwa [hsame])) _ _

end RathalOS.FileContents
