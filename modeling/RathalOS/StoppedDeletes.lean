import RathalOS.GuardedImages
import RathalOS.MetadataWrites

/-!
Calls of delete_file that are stopped between or during their writes. Both bitmaps
are written before the inode table, so a call that is stopped may have cleared
marks of a file that is still stored. Running it again finds the file again and
clears the rest. Where it looks for indirect blocks it reads the wrong ones; what
it takes for their entries must spare the blocks of the other files, or these lose
their marks. What is stored is the old or the new in any case.
-/
namespace RathalOS.StoppedDeletes

open ByteMemory ByteFile Blocks Bitmaps CStrings Superblocks Inodes FileAccess FirstFit
open Histories TornWrites Images AddFile DeleteFile DeletedFiles ImageRuns WrittenImages
open MetadataWrites GuardedImages AddedFiles EmptyImages

/-- The blocks that no file owns but the one in the slot. -/
def unshared (sb : Superblock) (m : Memory) (i : ℕ) : Set ℕ :=
  {b | b ≠ 0 ∧ ∀ j, Live sb m j → j ≠ i → ¬ Owns sb m (inodeAt sb m j) b}

/-- The words that delete_file takes for entries of indirect blocks are in range and name
no block of another file. -/
structure MisreadSpares (sb : Superblock) (m : Memory) (i : ℕ) : Prop where
  inRange : ∀ w, Misread sb m (inodeAt sb m i) w → w < sb.datablockCount
  others : ∀ w, Misread sb m (inodeAt sb m i) w → w ∈ unshared sb m i

/-- The file i is still stored, but some of its marks may be gone. -/
def Fading (sb : Superblock) (i : ℕ) (m m' : Memory) : Prop :=
  Grows sb {i} (unshared sb m i) m m'

/-- The file i is gone, and everything else that is stored is kept. -/
structure Gone (sb : Superblock) (i : ℕ) (m m' : Memory) : Prop where
  number : (inodeAt sb m' i).number = 0
  slots : ∀ j < sb.inodeCount, j ≠ i → ∀ k < inodeSize,
    m' (sb.blockSize * sb.inodeStart + inodeSize * j + k) =
      m (sb.blockSize * sb.inodeStart + inodeSize * j + k)
  contents : Set.EqOn m' m (heldBytes sb m)

/-- The file i is gone with its inode; its marks may be left. -/
structure Erased (sb : Superblock) (i : ℕ) (m m' : Memory) : Prop extends Gone sb i m m' where
  head : ∀ a < sb.blockSize, m' a = m a
  cleared : ∀ k < inodeSize, m' (sb.blockSize * sb.inodeStart + inodeSize * i + k) = 0
  inodes : ∀ j < sb.inodeCount, j ≠ i → inodeBit sb m j = true → inodeBit sb m' j = true
  blocks : ∀ b < sb.datablockCount, b ∉ unshared sb m i → dataBit sb m b = true →
    dataBit sb m' b = true

section Erasing

variable {sb : Superblock} {m m' : Memory} {i : ℕ}

theorem Gone.live_iff (h : Gone sb i m m') (j : ℕ) : Live sb m' j ↔ Live sb m j ∧ j ≠ i := by
  by_cases hji : j = i
  · rw [hji]
    exact iff_of_false (fun hlive => hlive.2 h.number) (by simp)
  · rw [and_iff_left hji]
    refine and_congr_right fun hj => ?_
    rw [inodeAt_congr (h.slots j hj hji)]

theorem Gone.names (h : Gone sb i m m') (hn : NamesDistinct sb m) : NamesDistinct sb m' := by
  refine hn.setSlot (fun j hj hji => inodeAt_congr (h.slots j hj hji)) fun hlive => ?_
  exact absurd rfl ((h.live_iff i).mp hlive).2

theorem Gone.sameFile (hg : Guarded sb m) (h : Gone sb i m m') {j : ℕ} (hj : Live sb m j)
    (hji : j ≠ i) : SameFile sb m m' j where
  inode := inodeAt_congr (h.slots j hj.1 hji)
  blocks := by
    have hbounds := hg.layout.blockSize_bounds
    intro b howned t ht
    obtain ⟨hlt, hheld⟩ := hg.held j hj b howned
    exact h.contents ⟨b, hlt, howned.1, hheld, (Allocation.block_index (by omega) b ht).1⟩

theorem Gone.storeOf (hg : Guarded sb m) (hi : Live sb m i) (h : Gone sb i m m') :
    storeOf sb m' = apply (storeOf sb m) (.erase (inodeAt sb m i).shownName) :=
  storeOf_erase hg.layout.blockSize_bounds.1 hg.names (h.names hg.names) hg.sizes hi h.live_iff
    fun _ hj hji => h.sameFile hg hj hji

theorem Gone.lookup (hg : Guarded sb m) (hi : Live sb m i) (h : Gone sb i m m')
    {filename : Memory} (hname : (inodeAt sb m i).shownName = cut 31 filename) :
    lookup filename (inodeTableOf sb m') = none := by
  rw [lookup_none_iff]
  intro j hj hjname
  obtain ⟨hj, hji⟩ := (h.live_iff j).mp hj
  rw [inodeAt_congr (h.slots j hj.1 hji), ← hname] at hjname
  exact hji (hg.names j i hj hi hjname)

theorem number_of_cleared
    (h : ∀ k < inodeSize, m' (sb.blockSize * sb.inodeStart + inodeSize * i + k) = 0) :
    (inodeAt sb m' i).number = 0 := by
  rw [inodeAt_cleared h]
  rfl

/-- Erasing a file keeps the image guarded. -/
theorem guarded_of_erased (hg : Guarded sb m) (hi : Live sb m i) (h : Erased sb i m m') :
    Guarded sb m' := by
  obtain ⟨hsb, hvalid⟩ := superblock_of_head hg.layout h.head hg.superblock hg.valid
  have hgone := h.toGone
  have hcleared := inodeAt_cleared h.cleared
  have hi0 : i ≠ 0 := by
    intro h0
    have hnumber := (hg.number i hi.1).resolve_left hi.2
    apply hi.2
    apply BitVec.eq_of_toNat_eq
    rw [hnumber, h0]
    rfl
  constructor
  case superblock => exact hsb
  case valid => exact hvalid
  case layout => exact hg.layout
  case inodeCount_le => exact hg.inodeCount_le
  case datablockCount_le => exact hg.datablockCount_le
  case slot_zero => exact h.inodes 0 hg.layout.inodeCount_pos (Ne.symm hi0) hg.slot_zero
  case block_zero =>
    exact h.blocks 0 hg.layout.datablockCount_pos (fun howned => howned.1 rfl) hg.block_zero
  case number =>
    intro j hj
    by_cases hji : j = i
    · rw [hji, hcleared]
      exact Or.inl rfl
    · rw [inodeAt_congr (h.slots j hj hji)]
      exact hg.number j hj
  case free_zero =>
    intro j hj hfree
    by_cases hji : j = i
    · rw [hji, hcleared]
    · rw [inodeAt_congr (h.slots j hj hji)] at hfree ⊢
      exact hg.free_zero j hj hfree
  case marked =>
    intro j hj
    obtain ⟨hj, hji⟩ := (hgone.live_iff j).mp hj
    exact h.inodes j hj.1 hji (hg.marked j hj)
  case held =>
    intro j hj b howned
    obtain ⟨hj, hji⟩ := (hgone.live_iff j).mp hj
    have howned' := (owns_same (hgone.sameFile hg hj hji)).mp howned
    obtain ⟨hlt, hheld⟩ := hg.held j hj b howned'
    exact ⟨hlt, h.blocks b hlt (fun hb => hb.2 j hj hji howned') hheld⟩
  case apart =>
    intro j k b hj hk hb hb'
    obtain ⟨hj, hji⟩ := (hgone.live_iff j).mp hj
    obtain ⟨hk, hki⟩ := (hgone.live_iff k).mp hk
    exact hg.apart j k b hj hk ((owns_same (hgone.sameFile hg hj hji)).mp hb)
      ((owns_same (hgone.sameFile hg hk hki)).mp hb')
  case names => exact hgone.names hg.names
  case sizes =>
    intro j hj
    obtain ⟨hj, hji⟩ := (hgone.live_iff j).mp hj
    exact (hgone.sameFile hg hj hji).sizeExact (hg.sizes j hj)

end Erasing

section Tearing

variable {sb : Superblock} {m x y old new : Memory} {i : ℕ}

/-- What an image keeps that has lost at most one file. -/
theorem others_kept (h : Keeps sb m x ∨ Gone sb i m x) :
    (∀ j < sb.inodeCount, j ≠ i → ∀ k < inodeSize,
      x (sb.blockSize * sb.inodeStart + inodeSize * j + k) =
        m (sb.blockSize * sb.inodeStart + inodeSize * j + k)) ∧
    Set.EqOn x m (heldBytes sb m) := by
  rcases h with hkept | hgone
  · exact ⟨fun j hj _ k hk => hkept (Or.inl (slot_mem_tableBytes hj hk)),
      fun a ha => hkept (Or.inr ha)⟩
  · exact ⟨hgone.slots, hgone.contents⟩

theorem torn_others (hold : Keeps sb m old ∨ Gone sb i m old)
    (hnew : Keeps sb m new ∨ Gone sb i m new) (reached : ℕ → Bool) :
    (∀ j < sb.inodeCount, j ≠ i → ∀ k < inodeSize,
      torn 512 reached old new (sb.blockSize * sb.inodeStart + inodeSize * j + k) =
        m (sb.blockSize * sb.inodeStart + inodeSize * j + k)) ∧
    Set.EqOn (torn 512 reached old new) m (heldBytes sb m) := by
  obtain ⟨hslots, hcontents⟩ := others_kept hold
  obtain ⟨hslots', hcontents'⟩ := others_kept hnew
  refine ⟨?_, torn_eqOn reached hcontents hcontents'⟩
  intro j hj hji k hk
  rcases torn_cases 512 reached old new (sb.blockSize * sb.inodeStart + inodeSize * j + k)
    with hcase | hcase
  · rw [hcase, hslots' j hj hji k hk]
  · rw [hcase, hslots j hj hji k hk]

/-- With all other files kept, the inode decides whether everything is. -/
theorem keeps_of_slot (hkept : Keeps sb m x) (hslot : Set.EqOn y x (slotBytes sb i))
    (hslots : ∀ j < sb.inodeCount, j ≠ i → ∀ k < inodeSize,
      y (sb.blockSize * sb.inodeStart + inodeSize * j + k) =
        m (sb.blockSize * sb.inodeStart + inodeSize * j + k))
    (hcontents : Set.EqOn y m (heldBytes sb m)) : Keeps sb m y := by
  intro a ha
  rcases ha with ha | ha
  · obtain ⟨j, hj, k, hk, rfl⟩ := slot_of_tableBytes ha
    by_cases hji : j = i
    · rw [hslot ⟨k, hk, by rw [hji]⟩, hkept (Or.inl ha)]
    · exact hslots j hj hji k hk
  · exact hcontents ha

/-- The inode lies in one sector, so between two writes there is one of the images that
there are before and after. -/
theorem torn_kept_or_gone (hl : Layout sb) (hold : Keeps sb m old ∨ Gone sb i m old)
    (hnew : Keeps sb m new ∨ Gone sb i m new) (reached : ℕ → Bool) :
    Keeps sb m (torn 512 reached old new) ∨ Gone sb i m (torn 512 reached old new) := by
  obtain ⟨hslots, hcontents⟩ := torn_others hold hnew reached
  have hcase : ∀ z, (Keeps sb m z ∨ Gone sb i m z) →
      Set.EqOn (torn 512 reached old new) z (slotBytes sb i) →
      Keeps sb m (torn 512 reached old new) ∨ Gone sb i m (torn 512 reached old new) := by
    intro z hz hslot
    rcases hz with hkept | hgone
    · exact Or.inl (keeps_of_slot hkept hslot hslots hcontents)
    · refine Or.inr ⟨?_, hslots, hcontents⟩
      rw [inodeAt_congr fun k hk => hslot ⟨k, hk, rfl⟩]
      exact hgone.number
  rcases torn_slot hl i reached old new with hslot | hslot
  · exact hcase old hold hslot
  · exact hcase new hnew hslot

end Tearing

/-- A file that is fading is found. -/
theorem Fading.lookup {sb : Superblock} {m m' : Memory} {i : ℕ} (h : Fading sb i m m')
    (hg : Guarded sb m) (hi : Live sb m i) {filename : Memory}
    (hname : (inodeAt sb m i).shownName = cut 31 filename) :
    lookup filename (inodeTableOf sb m') = some i := by
  have hkeeps := h.keeps
  refine lookup_of_live (hkeeps.names hg.names) ((hkeeps.live_iff i).mpr hi) ?_
  rw [hkeeps.inodeAt hi.1, hname]

section Calls

variable {sb : Superblock} {m : Memory} {fs : File} {i : ℕ} {filename stale : Memory}

/-- Without indirect blocks nothing is read for them. -/
theorem spares_of_direct (h : ∀ k : Fin 9, indirectAt (inodeAt sb m i) k = 0) :
    MisreadSpares sb m i := by
  have hnone : ∀ w, ¬ Misread sb m (inodeAt sb m i) w := by
    intro w hw
    obtain ⟨-, k, j, hk, -⟩ := hw
    exact hk (h ⟨k, indirectAt_ne_zero_lt hk⟩)
  exact ⟨fun w hw => absurd hw (hnone w), fun w hw => absurd hw (hnone w)⟩

theorem Fading.unshared {m' : Memory} (hf : Fading sb i m m') (hg : Guarded sb m) :
    unshared sb m' i = unshared sb m i := by
  ext b
  refine and_congr_right fun _ => forall_congr' fun j => ?_
  rw [hf.keeps.live_iff j]
  refine forall_congr' fun hj => ?_
  rw [owns_same (hf.keeps.sameFile hg hj)]

/-- The bits that delete_file clears are in range, and no other file owns their blocks. -/
theorem indexedBy_fading (hg : Guarded sb m) (hi : Live sb m i) {m' : Memory}
    (hf : Fading sb i m m') (hspares : MisreadSpares sb m' i) {b : ℕ}
    (hb : b ∈ indexedBy sb m' (inodeAt sb m i)) :
    b < sb.datablockCount ∧ b ∈ unshared sb m i := by
  have hown : ∀ place, pointer sb m (inodeAt sb m i) place ≠ 0 →
      pointer sb m (inodeAt sb m i) place ∈ unshared sb m i := by
    intro place hne
    refine ⟨hne, fun j hj hji howned => hji ?_⟩
    exact hg.apart j i _ hj hi howned ⟨hne, place, rfl⟩
  obtain ⟨hpos, ⟨k, rfl⟩ | ⟨k, rfl⟩ | hw⟩ := mem_indexedBy.mp hb
  · exact ⟨hg.pointer_lt hi (.direct k), hown (.direct k) (Nat.ne_of_gt hpos)⟩
  · exact ⟨hg.pointer_lt hi (.indirect k), hown (.indirect k) (Nat.ne_of_gt hpos)⟩
  · rw [← hf.keeps.inodeAt hi.1] at hw
    have hother := hspares.others b hw
    rw [Fading.unshared hf hg] at hother
    exact ⟨hspares.inRange b hw, hother⟩

/-- A call of delete_file on an image from which the file is fading finds it, and takes
no marks of another file. -/
theorem deleteFileImages_fading (hg : Guarded sb m) (hi : Live sb m i)
    (hname : (inodeAt sb m i).shownName = cut 31 filename) (hf : Fading sb i m fs.bytes)
    (hcovers : sb.blockSize * (sb.datablocksStart + sb.datablockCount) ≤ fs.size)
    (hspares : MisreadSpares sb fs.bytes i) (stale : Memory) :
    ∃ r p fs₁ fs₂ ib db,
      deleteFileImages stale filename fs = .ok (r, [fs.movedTo p, fs₁, fs₂, r.fs]) ∧
      Stages sb ib db (inodePut (inodeTableOf sb fs.bytes) i Inode.zero) fs.bytes fs₁.bytes
        fs₂.bytes r.fs.bytes ∧
      (∀ j < sb.inodeCount, ib.test j = true ↔ inodeBit sb fs.bytes j = true ∧ j ≠ i) ∧
      (∀ b < sb.datablockCount, dataBit sb fs.bytes b = true → b ∉ unshared sb m i →
        db.test b = true) ∧
      fs.size ≤ r.fs.size := by
  have hl := hg.layout
  have hbounds := hl.blockSize_bounds
  have hcount := hg.inodeCount_le
  have hblocks := hg.datablockCount_le
  have hinode := hf.keeps.inodeAt hi.1
  have hnumber : (inodeAt sb m i).number.toNat = i := (hg.number i hi.1).resolve_left hi.2
  obtain ⟨hsb, hvalid⟩ := superblock_of_head hl hf.head hg.superblock hg.valid
  obtain ⟨p₁, p₂, p₃, p, hread, hib, hdb, hit⟩ := hl.regions.reads hsb hvalid
  have hfound := Fading.lookup hf hg hi hname
  have hget : inodeGet (inodeTableOf sb fs.bytes) i = .ok (inodeAt sb m i) := by
    rw [inodeGet, if_pos (by exact hi.1), inodeTableOf_inode hi.1, hinode]
  have hi₁ := hi.1
  obtain ⟨ib, hset, -, hibsize, hibtest⟩ := bitmapSet_spec
    (bitmapOf fs.bytes (sb.blockSize * sb.inodeBitmapStart) sb.inodeCount) i false
    (by omega) (show i < 8 * ((sb.inodeCount + 7) / 8) by omega)
  have hreadable : Readable fs sb.blockSize (inodeAt sb m i) :=
    readable_of_range hl.regions hcovers fun k => hg.pointer_lt hi (.indirect k)
  have harray : ∀ b ∈ indexedBy sb fs.bytes (inodeAt sb m i),
      InArray ((sb.datablockCount + 7) / 8) b := by
    intro b hb
    have hlt := (indexedBy_fading hg hi hf hspares hb).1
    exact ⟨by omega, by omega⟩
  obtain ⟨s₁, hdirect⟩ := releaseBlocks_total
    (List.ofFn fun k => ((inodeAt sb m i).directPtr k).toNat)
    ⟨bitmapOf fs.bytes (sb.blockSize * sb.datablockBitmapStart) sb.datablockCount, []⟩
    fun b hb => harray b (List.mem_append_left _ hb)
  have hreleased₁ := releaseBlocks_ok hdirect
  obtain ⟨s, fs₀, hindirect⟩ := releaseIndirect_total stale (show 0 < sb.blockSize by omega)
    hreadable (List.finRange 9) s₁ p (by
      intro b hb
      rw [hreleased₁.size]
      exact harray b (List.mem_append_right _ hb))
  obtain ⟨hreleased₂, p', rfl⟩ :=
    releaseIndirect_ok (show 0 < sb.blockSize by omega) hreadable hindirect
  have hreleased := hreleased₁.trans hreleased₂
  obtain ⟨fs', hwrite, -, hsize, -⟩ := WriteBack.writeMetadata_bytes ib s.datablockBitmap
    (inodePut (inodeTableOf sb fs.bytes) i Inode.zero) (fs.movedTo p') hl.regions hibsize
    hreleased.size rfl
  rw [← writeMetadataImages_erase sb ib s.datablockBitmap _ _ [fs.movedTo p']] at hwrite
  obtain ⟨images, hwrite⟩ := exists_of_map_fst hwrite
  obtain ⟨fs₁, fs₂, rfl, hstages⟩ :=
    writeMetadataImages_ok hl.regions hibsize hreleased.size rfl hwrite
  refine ⟨⟨.deleted, fs', s.indexed⟩, p', fs₁, fs₂, ib, s.datablockBitmap, ?_, hstages, ?_, ?_,
    hsize⟩
  · simp only [deleteFileImages, hread, ok_bind, hib, hdb, hit, fsGetFileInode_of_image, hfound,
      hget, hnumber, hset, hdirect, hindirect, hwrite]
    rfl
  · intro j hj
    rw [hibtest]
    by_cases hji : j = i
    · rw [hji, Function.update_self]
      simp
    · rw [Function.update_of_ne hji, bitmapOf_test hj, and_iff_left hji]
      rfl
  · intro b hb hheld hfree
    rw [hreleased.test, bitmapOf_test hb]
    exact ⟨hheld, fun hmem => hfree (indexedBy_fading hg hi hf hspares hmem).2⟩

end Calls

/-- The images of a call on an image from which the file is fading. -/
structure Vanishing (sb : Superblock) (i : ℕ) (m m₀ m₁ m₂ m₃ : Memory) (ib db : Bitmap) :
    Prop where
  fading : Fading sb i m m₀
  stages : Stages sb ib db (inodePut (inodeTableOf sb m₀) i Inode.zero) m₀ m₁ m₂ m₃
  inodes : ∀ j < sb.inodeCount, ib.test j = true ↔ inodeBit sb m₀ j = true ∧ j ≠ i
  blocks : ∀ b < sb.datablockCount, dataBit sb m₀ b = true → b ∉ unshared sb m i →
    db.test b = true

section Writes

variable {sb : Superblock} {i : ℕ} {m m₀ m₁ m₂ m₃ m' : Memory} {ib db : Bitmap}

theorem Vanishing.first (hg : Guarded sb m) (hs : Snug sb)
    (h : Vanishing sb i m m₀ m₁ m₂ m₃ ib db) : Fading sb i m m₁ := by
  have hl := hg.layout
  have hbounds := hl.blockSize_bounds
  constructor
  case keeps =>
    intro a ha
    rw [← h.fading.keeps ha]
    rcases ha with ha | ha
    · exact h.stages.first_table hl ha.1
    · exact (h.stages.after hl (heldBytes_after (by omega) ha)).1
  case head =>
    intro a ha
    rw [(h.stages.head hl ha).1, h.fading.head a ha]
  case inodes =>
    intro j hj hji hbit
    rw [(h.stages.inodeBit hl hj).1, h.inodes j hj]
    exact ⟨h.fading.inodes j hj hji hbit, hji⟩
  case blocks =>
    intro b hb hfree hbit
    rw [h.stages.dataBit_first hs]
    exact h.fading.blocks b hb hfree hbit

theorem Vanishing.second (hg : Guarded sb m) (hs : Snug sb)
    (h : Vanishing sb i m m₀ m₁ m₂ m₃ ib db) : Fading sb i m m₂ := by
  have hl := hg.layout
  have hbounds := hl.blockSize_bounds
  constructor
  case keeps =>
    intro a ha
    rw [← h.fading.keeps ha]
    rcases ha with ha | ha
    · exact h.stages.second_table hl hs ha.1
    · exact (h.stages.after hl (heldBytes_after (by omega) ha)).2.1
  case head =>
    intro a ha
    rw [(h.stages.head hl ha).2.1, h.fading.head a ha]
  case inodes =>
    intro j hj hji hbit
    rw [(h.stages.inodeBit hl hj).2, h.inodes j hj]
    exact ⟨h.fading.inodes j hj hji hbit, hji⟩
  case blocks =>
    intro b hb hfree hbit
    rw [h.stages.dataBit hl hb]
    exact h.blocks b hb (h.fading.blocks b hb hfree hbit) hfree

/-- The third write clears the inode and nothing else in the table. -/
theorem Vanishing.table (h : Vanishing sb i m m₀ m₁ m₂ m₃ ib db) {j k : ℕ}
    (hj : j < sb.inodeCount) (hk : k < inodeSize) :
    m₃ (sb.blockSize * sb.inodeStart + inodeSize * j + k) =
      if j = i then 0 else m (sb.blockSize * sb.inodeStart + inodeSize * j + k) := by
  rw [h.stages.erased_table hj hk, h.fading.keeps (Or.inl (slot_mem_tableBytes hj hk))]

theorem Vanishing.gone (hg : Guarded sb m) (hi : i < sb.inodeCount)
    (h : Vanishing sb i m m₀ m₁ m₂ m₃ ib db) : Gone sb i m m₃ := by
  have hbounds := hg.layout.blockSize_bounds
  constructor
  case number =>
    apply number_of_cleared
    intro k hk
    rw [h.table hi hk, if_pos rfl]
  case slots =>
    intro j hj hji k hk
    rw [h.table hj hk, if_neg hji]
  case contents =>
    intro a ha
    rw [(h.stages.after hg.layout (heldBytes_after (by omega) ha)).2.2]
    exact h.fading.keeps (Or.inr ha)

/-- During the third write the file is still there, or gone. -/
theorem Vanishing.torn_third (hg : Guarded sb m) (hs : Snug sb) (hi : i < sb.inodeCount)
    (h : Vanishing sb i m m₀ m₁ m₂ m₃ ib db) (reached : ℕ → Bool) :
    Fading sb i m (torn 512 reached m₂ m₃) ∨ Erased sb i m (torn 512 reached m₂ m₃) := by
  have hl := hg.layout
  have hsecond := h.second hg hs
  have hbelow : ∀ a < sb.blockSize * sb.inodeStart, torn 512 reached m₂ m₃ a = m₂ a :=
    fun a ha => h.stages.torn_below reached ha
  obtain ⟨hslots, hcontents⟩ := torn_others (Or.inl hsecond.keeps) (Or.inr (h.gone hg hi)) reached
  rcases torn_slot hl i reached m₂ m₃ with hold | hnew
  · exact Or.inl (hsecond.of_below hl (keeps_of_slot hsecond.keeps hold hslots hcontents) hbelow)
  · refine Or.inr ?_
    obtain ⟨h1, h2, h3, h4, -⟩ := hl.regions.offsets
    obtain ⟨hib, hdb, -⟩ := hl.tables_fit
    have hcleared : ∀ k < inodeSize,
        torn 512 reached m₂ m₃ (sb.blockSize * sb.inodeStart + inodeSize * i + k) = 0 := by
      intro k hk
      rw [hnew ⟨k, hk, rfl⟩, h.table hi hk, if_pos rfl]
    constructor
    case toGone => exact ⟨number_of_cleared hcleared, hslots, hcontents⟩
    case head =>
      intro a ha
      rw [hbelow a (by omega), hsecond.head a ha]
    case cleared => exact hcleared
    case inodes =>
      intro j hj hji hbit
      unfold inodeBit bitAt
      rw [hbelow _ (by omega)]
      exact hsecond.inodes j hj hji hbit
    case blocks =>
      intro b hb hfree hbit
      unfold dataBit bitAt
      rw [hbelow _ (by omega)]
      exact hsecond.blocks b hb hfree hbit

/-- A call that comes to its end has erased the file. -/
theorem Vanishing.finished (hg : Guarded sb m) (hs : Snug sb) (hi : Live sb m i)
    (h : Vanishing sb i m m₀ m₁ m₂ m₃ ib db) : Erased sb i m m₃ := by
  rcases h.torn_third hg hs hi.1 (fun _ => true) with hfading | herased
  · have hkept := hfading.keeps.inodeAt hi.1
    have hfree := (h.gone hg hi.1).number
    rw [torn_all] at hkept
    rw [hkept] at hfree
    exact absurd hfree hi.2
  · exact herased

/-- Wherever a call is stopped, the file is still there with some of its marks, or gone. -/
theorem Vanishing.stopped (hg : Guarded sb m) (hs : Snug sb) (hi : i < sb.inodeCount)
    (h : Vanishing sb i m m₀ m₁ m₂ m₃ ib db) (hstop : Stop 512 [m₀, m₁, m₂, m₃] m') :
    Fading sb i m m' ∨ Erased sb i m m' := by
  rcases (show Stop 512 ([m₀, m₁] ++ [m₂, m₃]) m' from hstop).last_write with
    hbefore | ⟨reached, rfl⟩
  · refine Or.inl (hbefore.of_forall ?_ fun old new reached hold hnew => hold.torn hnew reached)
    intro t ht
    simp only [List.cons_append, List.nil_append, List.mem_cons, List.not_mem_nil, or_false] at ht
    rcases ht with rfl | rfl | rfl
    · exact h.fading
    · exact h.first hg hs
    · exact h.second hg hs
  · exact h.torn_third hg hs hi reached

end Writes

/-- A call of delete_file spares the other files. -/
def Spares (sb : Superblock) (filename : Memory) (m : Memory) : Prop :=
  ∀ i, lookup filename (inodeTableOf sb m) = some i → MisreadSpares sb m i

/-- delete_file is called again until a call comes to its end; those before it were
stopped. Writing does not shorten the image file. -/
inductive Retried (sb : Superblock) (filename : Memory) : File → File → Prop
  | finished {stale : Memory} {fs : File} {r : DeleteResult} {images : List File}
      (hspares : Spares sb filename fs.bytes)
      (h : deleteFileImages stale filename fs = .ok (r, images)) : Retried sb filename fs r.fs
  | again {stale : Memory} {fs fs₁ fs' : File} {r : DeleteResult} {images : List File}
      (hspares : Spares sb filename fs.bytes)
      (h : deleteFileImages stale filename fs = .ok (r, images))
      (hstop : Stop 512 (images.map File.bytes) fs₁.bytes) (hsize : fs.size ≤ fs₁.size)
      (hrest : Retried sb filename fs₁ fs') : Retried sb filename fs fs'

section Retries

variable {sb : Superblock} {m : Memory} {fs fs' : File} {i : ℕ} {filename : Memory}

theorem deleteFileImages_absent (hg : Guarded sb fs.bytes)
    (hnone : lookup filename (inodeTableOf sb fs.bytes) = none) (stale : Memory) :
    ∃ p, deleteFileImages stale filename fs =
      .ok (⟨.notPresent, fs.movedTo p, []⟩, [fs.movedTo p]) := by
  obtain ⟨p₁, p₂, p₃, p, hread, hib, hdb, hit⟩ :=
    hg.layout.regions.reads hg.superblock hg.valid
  refine ⟨p, ?_⟩
  simp only [deleteFileImages, hread, ok_bind, hib, hdb, hit, fsGetFileInode_of_image, hnone]

/-- A call that spares the other files returns. -/
theorem deleteFileImages_returns (hg : Guarded sb fs.bytes)
    (hcovers : sb.blockSize * (sb.datablocksStart + sb.datablockCount) ≤ fs.size)
    (hspares : Spares sb filename fs.bytes) (stale : Memory) :
    ∃ r images, deleteFileImages stale filename fs = .ok (r, images) := by
  cases hfound : lookup filename (inodeTableOf sb fs.bytes) with
  | none =>
    obtain ⟨p, hok⟩ := deleteFileImages_absent hg hfound stale
    exact ⟨_, _, hok⟩
  | some i =>
    obtain ⟨hlive, hname⟩ := lookup_live hfound
    obtain ⟨r, p, fs₁, fs₂, ib, db, hok, -⟩ := deleteFileImages_fading hg hlive hname
      (Grows.refl sb _ _ fs.bytes) hcovers (hspares i hfound) stale
    exact ⟨_, _, hok⟩

/-- Calls for a name that is not there change nothing. -/
theorem Retried.absent (h : Retried sb filename fs fs') (hg : Guarded sb m)
    (hnone : lookup filename (inodeTableOf sb m) = none) (hfs : fs.bytes = m) :
    fs'.bytes = m ∧ fs.size ≤ fs'.size := by
  induction h with
  | @finished stale fs r images hspares h =>
    have hg' : Guarded sb fs.bytes := by rwa [hfs]
    have hnone' : lookup filename (inodeTableOf sb fs.bytes) = none := by rwa [hfs]
    obtain ⟨p, hok⟩ := deleteFileImages_absent hg' hnone' stale
    rw [h] at hok
    cases hok
    exact ⟨hfs, Nat.le_refl _⟩
  | @again stale fs fs₁ fs' r images hspares h hstop hsize hrest ih =>
    have hg' : Guarded sb fs.bytes := by rwa [hfs]
    have hnone' : lookup filename (inodeTableOf sb fs.bytes) = none := by rwa [hfs]
    obtain ⟨p, hok⟩ := deleteFileImages_absent hg' hnone' stale
    rw [h] at hok
    cases hok
    obtain ⟨hbytes, hsize'⟩ := ih (hstop.of_single.trans hfs)
    exact ⟨hbytes, Nat.le_trans hsize hsize'⟩

theorem Retried.erased (h : Retried sb filename fs fs') (hg : Guarded sb m) (hi : Live sb m i)
    (hname : (inodeAt sb m i).shownName = cut 31 filename) (herased : Erased sb i m fs.bytes) :
    Erased sb i m fs'.bytes ∧ fs.size ≤ fs'.size := by
  obtain ⟨hbytes, hsize⟩ := h.absent (guarded_of_erased hg hi herased)
    (herased.toGone.lookup hg hi hname) rfl
  rw [hbytes]
  exact ⟨herased, hsize⟩

/-- Each call of delete_file for a file that is fading leaves it fading, unless it has
erased it; the last one has erased it. -/
theorem Retried.erases (h : Retried sb filename fs fs') (hg : Guarded sb m) (hs : Snug sb)
    (hi : Live sb m i) (hname : (inodeAt sb m i).shownName = cut 31 filename)
    (hcovers : sb.blockSize * (sb.datablocksStart + sb.datablockCount) ≤ fs.size)
    (hfading : Fading sb i m fs.bytes) :
    Erased sb i m fs'.bytes ∧ fs.size ≤ fs'.size := by
  induction h with
  | @finished stale fs r images hspares h =>
    obtain ⟨r', p, fs₁, fs₂, ib, db, hok, hstages, hinodes, hblocks, hsize⟩ :=
      deleteFileImages_fading hg hi hname hfading hcovers
        (hspares i (Fading.lookup hfading hg hi hname)) stale
    rw [h] at hok
    cases hok
    exact ⟨Vanishing.finished hg hs hi ⟨hfading, hstages, hinodes, hblocks⟩, hsize⟩
  | @again stale fs fs₃ fs' r images hspares h hstop hsize hrest ih =>
    obtain ⟨r', p, fs₁, fs₂, ib, db, hok, hstages, hinodes, hblocks, -⟩ :=
      deleteFileImages_fading hg hi hname hfading hcovers
        (hspares i (Fading.lookup hfading hg hi hname)) stale
    rw [h] at hok
    cases hok
    have hstopped : Fading sb i m fs₃.bytes ∨ Erased sb i m fs₃.bytes :=
      Vanishing.stopped hg hs hi.1 ⟨hfading, hstages, hinodes, hblocks⟩ hstop
    rcases hstopped with hfading' | herased
    · obtain ⟨herased, hsize'⟩ := ih (Nat.le_trans hcovers hsize) hfading'
      exact ⟨herased, Nat.le_trans hsize hsize'⟩
    · obtain ⟨herased, hsize'⟩ := hrest.erased hg hi hname herased
      exact ⟨herased, Nat.le_trans hsize hsize'⟩

/-- However often delete_file is stopped, once a call has come to its end the image is
guarded and the file is gone, and no other file is. -/
theorem retried_erases (hg : Guarded sb fs.bytes) (hs : Snug sb)
    (hcovers : sb.blockSize * (sb.datablocksStart + sb.datablockCount) ≤ fs.size)
    (h : Retried sb filename fs fs') :
    Guarded sb fs'.bytes ∧ fs.size ≤ fs'.size ∧
      storeOf sb fs'.bytes = apply (storeOf sb fs.bytes) (.erase (cut 31 filename)) := by
  cases hfound : lookup filename (inodeTableOf sb fs.bytes) with
  | none =>
    obtain ⟨hbytes, hsize⟩ := h.absent hg hfound rfl
    rw [hbytes]
    refine ⟨hg, hsize, ?_⟩
    have hvacant := storeOf_eq_none (lookup_none_iff.mp hfound)
    unfold apply
    rw [eq_comm, Function.update_eq_self_iff]
    exact hvacant.symm
  | some i =>
    obtain ⟨hlive, hname⟩ := lookup_live hfound
    obtain ⟨herased, hsize⟩ := h.erases hg hs hlive hname hcovers
      (Grows.refl sb _ _ fs.bytes)
    refine ⟨guarded_of_erased hg hlive herased, hsize, ?_⟩
    rw [herased.toGone.storeOf hg hlive, hname]

end Retries

section Outcomes

variable {sb : Superblock} {fs : File} {filename stale : Memory}
variable {r : DeleteResult} {images : List File}

/-- The images a call of delete_file writes one after another. -/
theorem deleteFileImages_spec (hg : Guarded sb fs.bytes)
    (hcovers : sb.blockSize * (sb.datablocksStart + sb.datablockCount) ≤ fs.size)
    (hrun : deleteFileImages stale filename fs = .ok (r, images)) :
    (lookup filename (inodeTableOf sb fs.bytes) = none ∧ r.fs.bytes = fs.bytes ∧
      ∃ p, images = [fs.movedTo p]) ∨
    ∃ i p fs₁ fs₂ ib db, lookup filename (inodeTableOf sb fs.bytes) = some i ∧
      images = [fs.movedTo p, fs₁, fs₂, r.fs] ∧
      Stages sb ib db (inodePut (inodeTableOf sb fs.bytes) i Inode.zero) fs.bytes fs₁.bytes
        fs₂.bytes r.fs.bytes := by
  cases hfound : lookup filename (inodeTableOf sb fs.bytes) with
  | none =>
    obtain ⟨p, hok⟩ := deleteFileImages_absent hg hfound stale
    rw [hrun] at hok
    cases hok
    exact Or.inl ⟨rfl, rfl, p, rfl⟩
  | some i =>
    have hl := hg.layout
    have hbounds := hl.blockSize_bounds
    have hcount := hg.inodeCount_le
    obtain ⟨hi, -⟩ := lookup_live hfound
    have hi₁ := hi.1
    have hnumber : (inodeAt sb fs.bytes i).number.toNat = i :=
      (hg.number i hi.1).resolve_left hi.2
    have hget : inodeGet (inodeTableOf sb fs.bytes) i = .ok (inodeAt sb fs.bytes i) := by
      rw [inodeGet, if_pos (by exact hi.1), inodeTableOf_inode hi.1]
    obtain ⟨ib, hset, -, hibsize, -⟩ := bitmapSet_spec
      (bitmapOf fs.bytes (sb.blockSize * sb.inodeBitmapStart) sb.inodeCount) i false
      (by omega) (show i < 8 * ((sb.inodeCount + 7) / 8) by omega)
    obtain ⟨p₁, p₂, p₃, p, hread, hib, hdb, hit⟩ := hl.regions.reads hg.superblock hg.valid
    simp only [deleteFileImages, hread, ok_bind, hib, hdb, hit, fsGetFileInode_of_image, hfound,
      hget, hnumber, hset] at hrun
    obtain ⟨s₁, hdirect, hrun⟩ := bind_eq_ok hrun
    obtain ⟨⟨s, fs₀⟩, hindirect, hrun⟩ := bind_eq_ok hrun
    obtain ⟨⟨fs', images'⟩, hwrite, hrun⟩ := bind_eq_ok hrun
    cases Except.ok.inj hrun
    obtain ⟨hreleased, p', rfl⟩ := releaseIndirect_ok (show 0 < sb.blockSize by omega)
      (readable_of_range hl.regions hcovers fun k => hg.pointer_lt hi (.indirect k)) hindirect
    obtain ⟨fs₁, fs₂, rfl, hstages⟩ := writeMetadataImages_ok hl.regions hibsize
      ((releaseBlocks_ok hdirect).trans hreleased).size rfl hwrite
    exact Or.inr ⟨i, p', fs₁, fs₂, ib, s.datablockBitmap, rfl, rfl, hstages⟩

/-- delete_file is atomic wherever it is stopped, whatever it takes for the entries of
indirect blocks: what is stored is what was stored before the call or after it. This is
so exactly if the padding that is written after the data bitmap reaches no inode in
use, but for the one that is deleted. -/
theorem deleteFile_atomic_iff (hg : Guarded sb fs.bytes)
    (hcovers : sb.blockSize * (sb.datablocksStart + sb.datablockCount) ≤ fs.size)
    (hrun : deleteFileImages stale filename fs = .ok (r, images)) :
    (∀ m, Stop 512 (images.map File.bytes) m →
      storeOf sb m = storeOf sb fs.bytes ∨ storeOf sb m = storeOf sb r.fs.bytes) ↔
    ∀ i, lookup filename (inodeTableOf sb fs.bytes) = some i → ∀ j, Live sb fs.bytes j → j ≠ i →
      bitmapEnd sb sb.datablockBitmapStart sb.datablockCount ≤
        sb.blockSize * sb.inodeStart + inodeSize * j := by
  rcases deleteFileImages_spec hg hcovers hrun with ⟨hnone, -, p, rfl⟩ |
    ⟨i, p, fs₁, fs₂, ib, db, hfound, rfl, hstages⟩
  · refine iff_of_true (fun m hstop => Or.inl ?_) fun i hi => ?_
    · rw [hstop.of_single]
      rfl
    · rw [hnone] at hi
      cases hi
  have hl := hg.layout
  have hbounds := hl.blockSize_bounds
  obtain ⟨hi, hname⟩ := lookup_live hfound
  have hkept₁ : Keeps sb fs.bytes fs₁.bytes := by
    intro a ha
    rcases ha with ha | ha
    · exact hstages.first_table hl ha.1
    · exact (hstages.after hl (heldBytes_after (by omega) ha)).1
  have hgone₃ : Gone sb i fs.bytes r.fs.bytes := by
    constructor
    case number =>
      apply number_of_cleared
      intro k hk
      rw [hstages.erased_table hi.1 hk, if_pos rfl]
    case slots =>
      intro j hj hji k hk
      rw [hstages.erased_table hj hk, if_neg hji]
    case contents =>
      intro a ha
      exact (hstages.after hl (heldBytes_after (by omega) ha)).2.2
  constructor
  · intro hatomic i' hi' j hj hji
    rw [hfound] at hi'
    cases hi'
    by_contra hreach
    have hlost := hstages.lost hg hkept₁ hj (by omega)
    have hbefore : storeOf sb fs.bytes (inodeAt sb fs.bytes j).shownName ≠ none := by
      rw [(storeOf_eq_some_iff hg.names).mpr ⟨j, hj, rfl, rfl⟩]
      exact Option.some_ne_none _
    have hafter : storeOf sb r.fs.bytes (inodeAt sb fs.bytes j).shownName ≠ none := by
      rw [(storeOf_eq_some_iff (hgone₃.names hg.names)).mpr ⟨j, (hgone₃.live_iff j).mpr ⟨hj, hji⟩,
        by rw [(hgone₃.sameFile hg hj hji).inode], rfl⟩]
      exact Option.some_ne_none _
    rcases hatomic fs₂.bytes (stop_of_mem 512 (by simp)) with h | h
    · rw [h] at hlost
      exact hbefore hlost
    · rw [h] at hlost
      exact hafter hlost
  · intro hclear m hstop
    have hkept₂ : Keeps sb fs.bytes fs₂.bytes ∨ Gone sb i fs.bytes fs₂.bytes := by
      have hcontents : Set.EqOn fs₂.bytes fs.bytes (heldBytes sb fs.bytes) :=
        fun a ha => (hstages.after hl (heldBytes_after (by omega) ha)).2.1
      by_cases hreach : sb.blockSize * sb.inodeStart + inodeSize * i <
          bitmapEnd sb sb.datablockBitmapStart sb.datablockCount
      · exact Or.inr ⟨hstages.cleared_number hl hreach, fun j hj hji k hk =>
          hstages.second_slot hg hkept₁ hj (fun hlive => hclear i hfound j hlive hji) hk, hcontents⟩
      · refine Or.inl fun a ha => ?_
        rcases ha with ha | ha
        · obtain ⟨j, hj, k, hk, rfl⟩ := slot_of_tableBytes ha
          refine hstages.second_slot hg hkept₁ hj (fun hlive => ?_) hk
          by_cases hji : j = i
          · rw [hji]
            exact Nat.not_lt.mp hreach
          · exact hclear i hfound j hlive hji
        · exact hcontents ha
    have hstate : Keeps sb fs.bytes m ∨ Gone sb i fs.bytes m := by
      refine hstop.of_forall (P := fun x => Keeps sb fs.bytes x ∨ Gone sb i fs.bytes x) ?_
        fun old new reached hold hnew => torn_kept_or_gone hl hold hnew reached
      intro t ht
      simp only [List.map_cons, List.map_nil, List.mem_cons, List.not_mem_nil, or_false] at ht
      rcases ht with rfl | rfl | rfl | rfl
      · exact Or.inl fun a _ => rfl
      · exact Or.inl hkept₁
      · exact hkept₂
      · exact Or.inr hgone₃
    rcases hstate with hkept | hgone
    · exact Or.inl (hkept.storeOf hg)
    · refine Or.inr ?_
      rw [hgone.storeOf hg hi, hgone₃.storeOf hg hi]

/-- Deleting the only file of the small image. -/
theorem deleteFile_atomic_small : ∃ r images,
    deleteFileImages (fun _ => 0) (nameOf 98) smallFileImage = .ok (r, images) ∧
    ∀ m, Stop 512 (images.map File.bytes) m →
      storeOf smallSuperblock m = storeOf smallSuperblock smallFileImage.bytes ∨
        storeOf smallSuperblock m = storeOf smallSuperblock r.fs.bytes := by
  obtain ⟨hw, -⟩ := run_store smallImage_wellFormed smallFileImage_run
  have hg := guarded_of_wellFormed hw
  have hspares : Spares smallSuperblock (nameOf 98) smallFileImage.bytes := by
    intro i hi
    rw [smallFileImage_found] at hi
    cases hi
    exact spares_of_direct (by decide +kernel)
  obtain ⟨r, images, hrun⟩ := deleteFileImages_returns hg hw.covers hspares (fun _ => 0)
  refine ⟨r, images, hrun, (deleteFile_atomic_iff hg hw.covers hrun).mpr ?_⟩
  intro _ _ j _ _
  exact Nat.le_trans smallSuperblock_snug.blocks (Nat.le_add_right _ _)

end Outcomes

end RathalOS.StoppedDeletes
