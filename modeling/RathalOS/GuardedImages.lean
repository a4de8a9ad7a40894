import RathalOS.ImageRuns
import RathalOS.TornWrites

/-!
Images in which nothing that is stored is marked free. More may be marked than
is stored, as after a call of add_file that did not come to its end; well-formed
images are the case in which nothing more is marked. The files of such an image
lie in the inode table and in the blocks marked as held, and adding a file to it
works as on a well-formed image.
-/
namespace RathalOS.GuardedImages

open ByteMemory ByteFile Blocks Bitmaps CStrings Superblocks Inodes FileAccess FirstFit
open Histories Images AddFile Allocation AddOutcomes AddedFiles ReadBack ImageRuns

/-- Whatever a file uses is marked. -/
structure Guarded (sb : Superblock) (m : Memory) : Prop where
  superblock : Superblock.ofMemory m = sb
  valid : superblockValid m
  layout : Layout sb
  inodeCount_le : sb.inodeCount ≤ 65535
  datablockCount_le : sb.datablockCount ≤ 65536
  slot_zero : inodeBit sb m 0 = true
  block_zero : dataBit sb m 0 = true
  number : ∀ i < sb.inodeCount,
    (inodeAt sb m i).number = 0 ∨ (inodeAt sb m i).number.toNat = i
  free_zero : ∀ i < sb.inodeCount, (inodeAt sb m i).number = 0 → inodeAt sb m i = Inode.zero
  marked : ∀ i, Live sb m i → inodeBit sb m i = true
  held : ∀ i, Live sb m i → ∀ b, Owns sb m (inodeAt sb m i) b →
    b < sb.datablockCount ∧ dataBit sb m b = true
  apart : ∀ i j b, Live sb m i → Live sb m j → Owns sb m (inodeAt sb m i) b →
    Owns sb m (inodeAt sb m j) b → i = j
  names : NamesDistinct sb m
  sizes : ∀ i, Live sb m i → SizeExact sb m (inodeAt sb m i)

/-- Where the inode table lies. -/
def tableBytes (sb : Superblock) : Set ℕ :=
  {a | sb.blockSize * sb.inodeStart ≤ a ∧
    a < sb.blockSize * sb.inodeStart + sb.inodeCount * inodeSize}

/-- Where the data blocks lie that are marked as held. -/
def heldBytes (sb : Superblock) (m : Memory) : Set ℕ :=
  {a | ∃ b < sb.datablockCount, b ≠ 0 ∧ dataBit sb m b = true ∧
    a / sb.blockSize = sb.datablocksStart + b}

/-- The inode table and every block marked as held are kept. -/
def Keeps (sb : Superblock) (m m' : Memory) : Prop :=
  Set.EqOn m' m (tableBytes sb ∪ heldBytes sb m)

/-- Nothing is lost but marks: every file is kept, and every mark except those of the
slots in I and of the blocks in B. -/
structure Grows (sb : Superblock) (I B : Set ℕ) (m m' : Memory) : Prop where
  keeps : Keeps sb m m'
  head : ∀ a < sb.blockSize, m' a = m a
  inodes : ∀ i < sb.inodeCount, i ∉ I → inodeBit sb m i = true → inodeBit sb m' i = true
  blocks : ∀ b < sb.datablockCount, b ∉ B → dataBit sb m b = true → dataBit sb m' b = true

section Weakening

variable {sb : Superblock} {fs : File} {m : Memory}

/-- A well-formed image is one where moreover nothing else is marked. -/
theorem guarded_of_wellFormed (hw : WellFormed sb fs) : Guarded sb fs.bytes where
  superblock := hw.superblock
  valid := hw.valid
  layout := hw.layout
  inodeCount_le := hw.inodeCount_le
  datablockCount_le := hw.datablockCount_le
  slot_zero := (hw.inodeBit_iff 0 hw.layout.inodeCount_pos).mpr (Or.inl rfl)
  block_zero := dataBit_zero hw.toConsistent
  number := hw.number
  free_zero := hw.free_zero
  marked i hi := (hw.inodeBit_iff i hi.1).mpr (Or.inr ((hw.number i hi.1).resolve_left hi.2))
  held _ hi _ hb := DeletedFiles.owned_held hw.toConsistent hi hb
  apart i j b hi hj hb hb' := by
    rcases hb with ⟨hne, p, hp⟩
    rcases hb' with ⟨-, q, hq⟩
    exact (hw.blocks.distinct i j p q hi hj (by rwa [hp]) (hp.trans hq.symm)).1
  names := hw.names
  sizes := hw.sizes

/-- A slot marked free is empty, and not the one with number 0. -/
theorem Guarded.clear_zero (hg : Guarded sb m) {i : ℕ} (hi : i < sb.inodeCount)
    (hclear : inodeBit sb m i = false) : i ≠ 0 ∧ inodeAt sb m i = Inode.zero := by
  constructor
  · intro h0
    rw [h0, hg.slot_zero] at hclear
    exact Bool.noConfusion hclear
  · apply hg.free_zero i hi
    by_contra hlive
    rw [hg.marked i ⟨hi, hlive⟩] at hclear
    exact Bool.noConfusion hclear

theorem Guarded.accessible (hg : Guarded sb fs.bytes) : Accessible sb fs where
  superblock := hg.superblock
  valid := hg.valid
  regions := hg.layout.regions
  inodeCount_le := hg.inodeCount_le
  clear_zero _ hi hclear := (hg.clear_zero hi hclear).2

theorem Guarded.pointer_lt (hg : Guarded sb m) {i : ℕ} (hi : Live sb m i) (place : Place) :
    pointer sb m (inodeAt sb m i) place < sb.datablockCount := by
  by_cases hzero : pointer sb m (inodeAt sb m i) place = 0
  · rw [hzero]
    exact hg.layout.datablockCount_pos
  · exact (hg.held i hi _ ⟨hzero, place, rfl⟩).1

/-- The contents of a stored file can be read back. -/
theorem fsRead_guarded (hg : Guarded sb fs.bytes)
    (hcovers : sb.blockSize * (sb.datablocksStart + sb.datablockCount) ≤ fs.size)
    {filename : Memory} {c : List Byte} (hc : storeOf sb fs.bytes (cut 31 filename) = some c)
    (stale dest : Memory) :
    ∃ p, fsRead stale filename 0 c.length dest fs =
      .ok (.done, fun a => if a < c.length then c.getD a 0 else dest a, fs.movedTo p) := by
  obtain ⟨i, hi, hname, rfl⟩ := (storeOf_eq_some_iff hg.names).mp hc
  obtain ⟨p, hread⟩ := fsRead_contents hg.superblock hg.valid hg.layout.regions hcovers
    (hg.pointer_lt hi)
    (lookup_of_live hg.names hi hname) (hg.sizes i hi) (Nat.le_of_eq (Nat.zero_add _)) stale dest
  simp only [Nat.zero_add] at hread
  exact ⟨p, hread⟩

end Weakening

section Zeros

variable {m : Memory} {a : ℕ}

theorem bytes_of_read16_zero (h : read16 m a = 0) : ∀ d < 2, m (a + d) = 0 := by
  have hnat := read16_toNat m a
  rw [h] at hnat
  change 0 = _ at hnat
  intro d hd
  apply BitVec.eq_of_toNat_eq
  change _ = 0
  interval_cases d
  · rw [Nat.add_zero]
    omega
  · omega

theorem bytes_of_read32_zero (h : read32 m a = 0) : ∀ d < 4, m (a + d) = 0 := by
  have hnat := congrArg BitVec.toNat h
  rw [read32, BitVec.toNat_ofNat] at hnat
  change _ = 0 at hnat
  have h0 := (m a).isLt
  have h1 := (m (a + 1)).isLt
  have h2 := (m (a + 2)).isLt
  have h3 := (m (a + 3)).isLt
  intro d hd
  apply BitVec.eq_of_toNat_eq
  change _ = 0
  interval_cases d
  · rw [Nat.add_zero]
    omega
  · omega
  · omega
  · omega

/-- An empty inode is stored as zeros. -/
theorem bytes_of_inode_zero (h : Inode.ofMemory m = Inode.zero) {k : ℕ} (hk : k < inodeSize) :
    m k = 0 := by
  obtain ⟨hnumber, hname, hsize, hdirect, hindirect⟩ := Inode.ext_iff.mp h
  simp only [inodeSize] at hk
  by_cases h2 : k < 2
  · simpa using bytes_of_read16_zero hnumber k h2
  by_cases h34 : k < 34
  · have hbyte := congrFun hname ⟨k - 2, by omega⟩
    rw [← show 2 + (k - 2) = k by omega]
    exact hbyte
  by_cases h38 : k < 38
  · rw [← show 34 + (k - 34) = k by omega]
    exact bytes_of_read32_zero hsize _ (by omega)
  by_cases h46 : k < 46
  · have hword := congrFun hdirect ⟨(k - 38) / 2, by omega⟩
    rw [← show 38 + 2 * ((k - 38) / 2) + (k - 38) % 2 = k by omega]
    exact bytes_of_read16_zero hword _ (by omega)
  · have hword := congrFun hindirect ⟨(k - 46) / 2, by omega⟩
    rw [← show 46 + 2 * ((k - 46) / 2) + (k - 46) % 2 = k by omega]
    exact bytes_of_read16_zero hword _ (by omega)

end Zeros

section Keeping

variable {sb : Superblock} {m m' : Memory}

theorem slot_mem_tableBytes {j k : ℕ} (hj : j < sb.inodeCount) (hk : k < inodeSize) :
    sb.blockSize * sb.inodeStart + inodeSize * j + k ∈ tableBytes sb := by
  simp only [inodeSize] at hk
  constructor
  · omega
  · simp only [inodeSize]
    omega

theorem slot_of_tableBytes {a : ℕ} (ha : a ∈ tableBytes sb) :
    ∃ j < sb.inodeCount, ∃ k < inodeSize,
      a = sb.blockSize * sb.inodeStart + inodeSize * j + k := by
  obtain ⟨hstart, hend⟩ := ha
  have hdiv := Nat.div_add_mod (a - sb.blockSize * sb.inodeStart) inodeSize
  refine ⟨(a - sb.blockSize * sb.inodeStart) / inodeSize, ?_,
    (a - sb.blockSize * sb.inodeStart) % inodeSize, Nat.mod_lt _ (by decide), by omega⟩
  rw [Nat.div_lt_iff_lt_mul (by decide)]
  omega

theorem Keeps.inodeAt (h : Keeps sb m m') {j : ℕ} (hj : j < sb.inodeCount) :
    inodeAt sb m' j = inodeAt sb m j :=
  inodeAt_congr fun _ hk => h (Or.inl (slot_mem_tableBytes hj hk))

theorem Keeps.live_iff (h : Keeps sb m m') (j : ℕ) : Live sb m' j ↔ Live sb m j := by
  refine and_congr_right fun hj => ?_
  rw [h.inodeAt hj]

theorem Keeps.names (hn : NamesDistinct sb m) (h : Keeps sb m m') : NamesDistinct sb m' := by
  intro i j hi hj hname
  rw [h.inodeAt hi.1, h.inodeAt hj.1] at hname
  exact hn i j ((h.live_iff i).mp hi) ((h.live_iff j).mp hj) hname

theorem Keeps.sameFile (hg : Guarded sb m) (h : Keeps sb m m') {j : ℕ} (hj : Live sb m j) :
    SameFile sb m m' j where
  inode := h.inodeAt hj.1
  blocks := by
    have hbounds := hg.layout.blockSize_bounds
    intro b howned t ht
    obtain ⟨hlt, hheld⟩ := hg.held j hj b howned
    exact h (Or.inr ⟨b, hlt, howned.1, hheld, (block_index (by omega) b ht).1⟩)

theorem storeOf_eq_none {name : List Byte}
    (h : ∀ k, Live sb m k → (Images.inodeAt sb m k).shownName ≠ name) :
    storeOf sb m name = none := by
  unfold ImageRuns.storeOf
  rw [Option.map_eq_none_iff, firstFree_none_iff]
  intro k hk
  by_cases hlive : (Images.inodeAt sb m k).number = 0
  · simp [hlive]
  · simp [h k ⟨hk, hlive⟩]

/-- The store is a matter of the bytes that are kept. -/
theorem Keeps.storeOf (hg : Guarded sb m) (h : Keeps sb m m') : storeOf sb m' = storeOf sb m :=
  storeOf_same hg.layout.blockSize_bounds.1 hg.names (h.names hg.names) hg.sizes h.live_iff
    fun _ hj => h.sameFile hg hj

theorem owns_same {j b : ℕ} (h : SameFile sb m m' j) :
    Owns sb m' (Images.inodeAt sb m' j) b ↔ Owns sb m (Images.inodeAt sb m j) b := by
  unfold Owns
  rw [h.pointer]

/-- Marking more keeps the image guarded. -/
theorem Guarded.of_grows (hg : Guarded sb m) (h : Grows sb ∅ ∅ m m') : Guarded sb m' := by
  have hkeeps := h.keeps
  obtain ⟨hsb, hvalid⟩ := superblock_of_head hg.layout h.head hg.superblock hg.valid
  constructor
  case superblock => exact hsb
  case valid => exact hvalid
  case layout => exact hg.layout
  case inodeCount_le => exact hg.inodeCount_le
  case datablockCount_le => exact hg.datablockCount_le
  case slot_zero =>
    exact h.inodes 0 hg.layout.inodeCount_pos (Set.notMem_empty 0) hg.slot_zero
  case block_zero =>
    exact h.blocks 0 hg.layout.datablockCount_pos (Set.notMem_empty 0) hg.block_zero
  case number =>
    intro i hi
    rw [hkeeps.inodeAt hi]
    exact hg.number i hi
  case free_zero =>
    intro i hi
    rw [hkeeps.inodeAt hi]
    exact hg.free_zero i hi
  case marked =>
    intro i hi
    exact h.inodes i hi.1 (Set.notMem_empty i) (hg.marked i ((hkeeps.live_iff i).mp hi))
  case held =>
    intro i hi b howned
    have hi' := (hkeeps.live_iff i).mp hi
    obtain ⟨hlt, hheld⟩ := hg.held i hi' b ((owns_same (hkeeps.sameFile hg hi')).mp howned)
    exact ⟨hlt, h.blocks b hlt (Set.notMem_empty b) hheld⟩
  case apart =>
    intro i j b hi hj hb hb'
    have hi' := (hkeeps.live_iff i).mp hi
    have hj' := (hkeeps.live_iff j).mp hj
    exact hg.apart i j b hi' hj' ((owns_same (hkeeps.sameFile hg hi')).mp hb)
      ((owns_same (hkeeps.sameFile hg hj')).mp hb')
  case names => exact hkeeps.names hg.names
  case sizes =>
    intro i hi
    have hi' := (hkeeps.live_iff i).mp hi
    exact (hkeeps.sameFile hg hi').sizeExact (hg.sizes i hi')

/-- A block that a file can own lies after block 0. -/
theorem heldBytes_after {a : ℕ} (hbs : 0 < sb.blockSize) (ha : a ∈ heldBytes sb m) :
    sb.blockSize * sb.datablocksStart + sb.blockSize ≤ a := by
  obtain ⟨b, -, hb0, -, hdiv⟩ := ha
  have hafter := WriteBack.block_after sb hb0 (a - sb.blockSize * (sb.datablocksStart + b))
  have hblock := ((div_eq_iff_mem_block hbs).mp hdiv).1
  omega

theorem Grows.refl (sb : Superblock) (I B : Set ℕ) (m : Memory) : Grows sb I B m m where
  keeps _ _ := rfl
  head _ _ := rfl
  inodes _ _ _ h := h
  blocks _ _ _ h := h

/-- Marks are kept byte by byte, so between two writes as well. -/
theorem Grows.torn {I B : Set ℕ} {old new : Memory} (hold : Grows sb I B m old)
    (hnew : Grows sb I B m new) (reached : ℕ → Bool) :
    Grows sb I B m (TornWrites.torn 512 reached old new) where
  keeps := TornWrites.torn_eqOn reached hold.keeps hnew.keeps
  head := TornWrites.torn_eqOn (S := {a | a < sb.blockSize}) reached hold.head hnew.head
  inodes i hi hI hbit := by
    unfold inodeBit bitAt
    rcases TornWrites.torn_cases 512 reached old new (sb.blockSize * sb.inodeBitmapStart + i / 8)
      with h | h
    · rw [h]
      exact hnew.inodes i hi hI hbit
    · rw [h]
      exact hold.inodes i hi hI hbit
  blocks b hb hB hbit := by
    unfold dataBit bitAt
    rcases TornWrites.torn_cases 512 reached old new
      (sb.blockSize * sb.datablockBitmapStart + b / 8) with h | h
    · rw [h]
      exact hnew.blocks b hb hB hbit
    · rw [h]
      exact hold.blocks b hb hB hbit

/-- Before the inode table there are only the superblock and the marks. -/
theorem Grows.of_below {I B : Set ℕ} {x : Memory} (hl : Layout sb) (hx : Grows sb I B m x)
    (h : Keeps sb m m') (hbelow : ∀ a < sb.blockSize * sb.inodeStart, m' a = x a) :
    Grows sb I B m m' := by
  obtain ⟨h1, h2, h3, h4, -⟩ := hl.regions.offsets
  obtain ⟨hib, hdb, -⟩ := hl.tables_fit
  constructor
  case keeps => exact h
  case head =>
    intro a ha
    rw [hbelow a (by omega), hx.head a ha]
  case inodes =>
    intro i hi hI hbit
    unfold inodeBit bitAt
    rw [hbelow _ (by omega)]
    exact hx.inodes i hi hI hbit
  case blocks =>
    intro b hb hB hbit
    unfold dataBit bitAt
    rw [hbelow _ (by omega)]
    exact hx.blocks b hb hB hbit

/-- Writing to free blocks keeps every file. -/
theorem keeps_of_scribbled (hr : Regions sb) (h : Scribbled sb m m') : Keeps sb m m' := by
  have hbounds := hr.blockSize_bounds
  intro a ha
  rcases ha with ⟨hstart, hend⟩ | ⟨b, hb, -, hheld, hdiv⟩
  · obtain ⟨-, -, -, h4, -⟩ := hr.offsets
    have hfit := hr.inodes_fit
    rw [Nat.mul_comm sb.inodeBlockCount] at hfit
    exact h.metadata (by omega) (by omega)
  · apply h
    intro b' _ hclear hdiv'
    rw [show b' = b by omega, hheld] at hclear
    exact Bool.noConfusion hclear

theorem grows_of_scribbled (hl : Layout sb) (h : Scribbled sb m m') : Grows sb ∅ ∅ m m' := by
  have hbounds := hl.blockSize_bounds
  obtain ⟨h1, h2, h3, h4, -⟩ := hl.regions.offsets
  obtain ⟨hib, hdb, -⟩ := hl.tables_fit
  constructor
  case keeps => exact keeps_of_scribbled hl.regions h
  case head =>
    intro a ha
    exact h.metadata (by omega) (by omega)
  case inodes =>
    intro i hi _ hbit
    unfold inodeBit bitAt
    rw [h.metadata (by omega) (by omega)]
    exact hbit
  case blocks =>
    intro b hb _ hbit
    unfold dataBit bitAt
    rw [h.metadata (by omega) (by omega)]
    exact hbit

end Keeping

section Adding

variable {stale filename : Memory} {sb : Superblock} {fs f : File} {n i : ℕ}
variable {data tables : List ℕ} {m m' : Memory}

theorem added_not_live (hg : Guarded sb m)
    (h : Added stale sb f n filename i data tables m m') : ¬ Live sb m i := by
  intro hlive
  have hmarked := hg.marked i hlive
  rw [h.slot_free] at hmarked
  exact Bool.noConfusion hmarked

theorem added_number (hg : Guarded sb m) (h : Added stale sb f n filename i data tables m m') :
    (inodeAt sb m' i).number ≠ 0 := by
  intro h0
  have hnumber := h.number
  rw [h0] at hnumber
  exact (hg.clear_zero h.slot_lt h.slot_free).1 hnumber.symm

theorem added_live_iff (hg : Guarded sb m) (h : Added stale sb f n filename i data tables m m')
    (j : ℕ) : Live sb m' j ↔ Live sb m j ∨ j = i := by
  by_cases hji : j = i
  · rw [hji]
    exact iff_of_true ⟨h.slot_lt, added_number hg h⟩ (Or.inr rfl)
  · rw [or_iff_left hji]
    refine and_congr_right fun hj => ?_
    rw [inodeAt_congr (h.slots j hj hji)]

/-- A file of a guarded image owns no block that was taken. -/
theorem added_sameFile (hg : Guarded sb m) (h : Added stale sb f n filename i data tables m m')
    {j : ℕ} (hj : Live sb m j) : SameFile sb m m' j where
  inode := inodeAt_congr (h.slots j hj.1 fun hji => added_not_live hg h (hji ▸ hj))
  blocks := by
    intro b howned
    apply h.kept b howned.1
    intro hmem
    have hheld := (hg.held j hj b howned).2
    rw [(h.fresh b hmem).2] at hheld
    exact Bool.noConfusion hheld

theorem Guarded.of_added (hg : Guarded sb m) (h : Added stale sb f n filename i data tables m m')
    (hn : n < 2 ^ 31) (hfresh : lookup filename (inodeTableOf sb m) = none) : Guarded sb m' := by
  have hbs := hg.layout.blockSize_bounds.1
  have hplaced := h.placed hg.block_zero
  have hslot : ∀ j < sb.inodeCount, j ≠ i → inodeAt sb m' j = inodeAt sb m j :=
    fun j hj hji => inodeAt_congr (h.slots j hj hji)
  obtain ⟨hsb, hvalid⟩ := superblock_of_head hg.layout h.head hg.superblock hg.valid
  constructor
  case superblock => exact hsb
  case valid => exact hvalid
  case layout => exact hg.layout
  case inodeCount_le => exact hg.inodeCount_le
  case datablockCount_le => exact hg.datablockCount_le
  case slot_zero => exact (h.inodeBits 0 hg.layout.inodeCount_pos).mpr (Or.inl hg.slot_zero)
  case block_zero => exact (h.dataBits 0 hg.layout.datablockCount_pos).mpr (Or.inl hg.block_zero)
  case number =>
    intro j hj
    by_cases hji : j = i
    · rw [hji]
      exact Or.inr h.number
    · rw [hslot j hj hji]
      exact hg.number j hj
  case free_zero =>
    intro j hj hfree
    by_cases hji : j = i
    · rw [hji] at hfree
      exact absurd hfree (added_number hg h)
    · rw [hslot j hj hji] at hfree ⊢
      exact hg.free_zero j hj hfree
  case marked =>
    intro j hj
    rw [h.inodeBits j hj.1]
    rcases (added_live_iff hg h j).mp hj with hold | hji
    · exact Or.inl (hg.marked j hold)
    · exact Or.inr hji
  case held =>
    intro j hj b howned
    rcases (added_live_iff hg h j).mp hj with hold | rfl
    · obtain ⟨hlt, hheld⟩ := hg.held j hold b ((owns_same (added_sameFile hg h hold)).mp howned)
      exact ⟨hlt, (h.dataBits b hlt).mpr (Or.inl hheld)⟩
    · have hmem := (hplaced.owns_iff hbs b).mp howned
      have hlt := (h.fresh b hmem).1
      exact ⟨hlt, (h.dataBits b hlt).mpr (Or.inr hmem)⟩
  case apart =>
    -- the blocks of the new file were free, those of the others were held
    have hnew : ∀ j b, Live sb m j → Owns sb m' (inodeAt sb m' j) b →
        Owns sb m' (inodeAt sb m' i) b → False := by
      intro j b hold hb hb'
      have hheld := (hg.held j hold b ((owns_same (added_sameFile hg h hold)).mp hb)).2
      rw [(h.fresh b ((hplaced.owns_iff hbs b).mp hb')).2] at hheld
      exact Bool.noConfusion hheld
    intro j k b hj hk hb hb'
    rcases (added_live_iff hg h j).mp hj with hold | rfl
    · rcases (added_live_iff hg h k).mp hk with hold' | rfl
      · exact hg.apart j k b hold hold' ((owns_same (added_sameFile hg h hold)).mp hb)
          ((owns_same (added_sameFile hg h hold')).mp hb')
      · exact (hnew j b hold hb hb').elim
    · rcases (added_live_iff hg h k).mp hk with hold' | rfl
      · exact (hnew k b hold' hb' hb).elim
      · rfl
  case names =>
    refine hg.names.setSlot hslot fun _ j hj => ?_
    rw [h.name]
    exact lookup_none_iff.mp hfresh j hj
  case sizes =>
    intro j hj
    rcases (added_live_iff hg h j).mp hj with hold | rfl
    · exact (added_sameFile hg h hold).sizeExact (hg.sizes j hold)
    · exact h.sizeExact hg.block_zero hn

/-- Adding a file to a guarded image puts its contents under its name. -/
theorem storeOf_added_guarded (hg : Guarded sb m) {c : List Byte} (hlen : c.length < 2 ^ 31)
    (hfresh : lookup filename (inodeTableOf sb m) = none)
    (h : Added stale sb (File.ofList c) c.length filename i data tables m m') :
    storeOf sb m' = apply (storeOf sb m) (.put (cut 31 filename) c) := by
  have hbs := hg.layout.blockSize_bounds.1
  have hg' := hg.of_added h hlen hfresh
  rw [storeOf_put hbs hg.names hg'.names hg.sizes (added_live_iff hg h)
    fun j hj => added_sameFile hg h hj, h.name, added_contents hg.block_zero hbs hlen h]

/-- On a guarded image a call scribbles into free blocks, or adds the file. -/
theorem addFile_guarded (hg : Guarded sb fs.bytes) (stale filename : Memory) (f : File)
    (hn : n < 2 ^ 32) :
    (∃ outcome fs', addFile stale f filename n fs = .ok (outcome, fs') ∧ outcome ≠ .added ∧
      fs.size ≤ fs'.size ∧ Scribbled sb fs.bytes fs'.bytes) ∨
    (lookup filename (inodeTableOf sb fs.bytes) = none ∧ ∃ i data tables fs',
      addFile stale f filename n fs = .ok (.added, fs') ∧
      fs.size ≤ fs'.size ∧ Added stale sb f n filename i data tables fs.bytes fs'.bytes) := by
  rcases addFileLog_spec hg.accessible stale filename f hn with ⟨-, p, hrun⟩ | ⟨-, -, p, hrun⟩ |
    ⟨hfresh, i, hi, hclear, data, tables, log, s, hcopied, hend⟩
  · exact Or.inl ⟨_, _, Reservations.addFile_of_log hrun, by decide, Nat.le_refl _,
      Scribbled.refl _ _⟩
  · exact Or.inl ⟨_, _, Reservations.addFile_of_log hrun, by decide, Nat.le_refl _,
      Scribbled.refl _ _⟩
  · have hprogress := hcopied.progress
    rcases hend with ⟨-, hrun⟩ | ⟨hdone, ib, itab, fs', hrun, hstored⟩
    · exact Or.inl ⟨_, _, Reservations.addFile_of_log hrun, by decide, hprogress.grows,
        scribbled_of_progress hprogress⟩
    · exact Or.inr ⟨hfresh, i, data, tables, fs', Reservations.addFile_of_log hrun,
        Nat.le_trans hprogress.grows hstored.grows,
        added_of_copied hg.layout hg.inodeCount_le hg.datablockCount_le hg.block_zero hcopied
          hstored hn hdone hi hclear⟩

end Adding

end RathalOS.GuardedImages
