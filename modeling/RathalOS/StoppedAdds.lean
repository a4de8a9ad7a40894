import RathalOS.GuardedImages
import RathalOS.MetadataWrites

/-!
Calls of add_file that are stopped between or during their writes. While blocks
are copied only free blocks change. Then both bitmaps are written before the
inode table, so what is stored is what was stored before, or with the new file,
unless the padding that blocks_write puts after the data bitmap clears inodes.
-/
namespace RathalOS.StoppedAdds

open ByteMemory ByteFile Blocks Bitmaps CStrings Superblocks Inodes FileAccess FirstFit
open Histories TornWrites Images AddFile Allocation AddedFiles ImageRuns WrittenImages
open MetadataWrites GuardedImages EmptyImages

/-- The copying loops at some point: the images so far differ from the first one in
free blocks only, and the last of them is the present one. -/
structure Filling (sb : Superblock) (m : Memory) (images : List File) (s : CopyState) : Prop where
  count : s.datablockBitmap.count = sb.datablockCount
  size : s.datablockBitmap.size = (sb.datablockCount + 7) / 8
  held : ∀ b < sb.datablockCount, dataBit sb m b = true → s.datablockBitmap.test b = true
  free : s.freeDatablocks = (freeCount s.datablockBitmap.test sb.datablockCount : ℤ)
  scribbled : ∀ image ∈ images, Scribbled sb m image.bytes
  ends : ∃ front, images = front ++ [s.fs]

section Copying

variable {stale : Memory} {sb : Superblock} {m : Memory} {images images' : List File}
variable {s s' : CopyState} {inode inode' : Inode}

/-- Reserving a block yields one that was free in the first image too. -/
theorem Filling.reserve (h : Filling sb m images s) (hr : Regions sb)
    (hfree : 0 < s.freeDatablocks) {blk : ℤ} {bitmap : Bitmap}
    (hok : bitmapReserveFirstAvailableBit s.datablockBitmap = .ok (blk, bitmap)) :
    ∃ b : ℕ, blk = b ∧ b < sb.datablockCount ∧ dataBit sb m b = false ∧
      Filling sb m images { s with
        datablockBitmap := bitmap
        freeDatablocks := s.freeDatablocks - 1 } := by
  obtain ⟨-, hdata⟩ := hr.counts
  have hcount := h.count
  have hsize := h.size
  have hfreeCount := h.free
  have hsized : s.datablockBitmap.Sized := ⟨by omega, by omega⟩
  obtain ⟨b, bitmap', hfirst, hok', hcount', hsize', htest⟩ | ⟨hnone, -⟩ :=
    bitmapReserveFirstAvailableBit_spec hsized
  · rw [hok] at hok'
    obtain ⟨rfl, rfl⟩ := Prod.mk.inj (Except.ok.inj hok')
    obtain ⟨hlt, hclear, -⟩ := firstFree_some hfirst
    rw [hcount] at hlt
    refine ⟨b, rfl, hlt, ?_, ?_⟩
    · by_contra hheld
      rw [Bool.not_eq_false] at hheld
      rw [h.held b hlt hheld] at hclear
      exact Bool.noConfusion hclear
    · constructor
      case count => exact hcount'.trans hcount
      case size => exact hsize'.trans hsize
      case held =>
        intro b' hb' hheld
        rw [htest, FirstFit.reserve]
        by_cases hbb : b' = b
        · rw [hbb, Function.update_self]
        · rw [Function.update_of_ne hbb]
          exact h.held b' hb' hheld
      case free =>
        have hused := freeCount_reserve hlt hclear
        rw [htest]
        simp only
        omega
      case scribbled => exact h.scribbled
      case ends => exact h.ends
  · have hpos : 0 < freeCount s.datablockBitmap.test s.datablockBitmap.count := by
      rw [hcount]
      omega
    obtain ⟨j, hj⟩ := exists_firstFree hpos
    rw [hj] at hnone
    cases hnone

/-- Writing one block that was free. -/
theorem Filling.write (h : Filling sb m images s) (hr : Regions sb) {b len : ℕ}
    (hb : b < sb.datablockCount) (hclear : dataBit sb m b = false) {data : Memory} {fs' : File}
    (hle : len ≤ sb.blockSize)
    (hok : blocksWrite sb.blockSize (uintOfInt (sb.datablocksStart + (b : ℤ))) data len s.fs =
      .ok fs') (f : File) (left : ℤ) :
    Filling sb m (images ++ [fs']) { s with dataLeft := left, f := f, fs := fs' } := by
  obtain ⟨front, hfront⟩ := h.ends
  have hlen : 0 < len := by
    by_contra hzero
    rw [blocksWrite, if_neg fun hand => hzero hand.2] at hok
    cases hok
  obtain ⟨fs'', hok', -, hframe, -⟩ := write_block hr hb data s.fs hlen hle
  rw [hok] at hok'
  obtain rfl := Except.ok.inj hok'
  have hlast : Scribbled sb m s.fs.bytes := h.scribbled _ (by simp [hfront])
  constructor
  case count => exact h.count
  case size => exact h.size
  case held => exact h.held
  case free => exact h.free
  case scribbled =>
    intro image himage
    rcases List.mem_append.mp himage with himage | himage
    · exact h.scribbled image himage
    · rw [List.mem_singleton.mp himage]
      intro a ha
      rw [hframe a (ha b hb hclear), hlast a ha]
  case ends => exact ⟨images, rfl⟩

theorem Filling.alloc (h : Filling sb m images s) (hr : Regions sb) (hmore : s.more) {blk : ℤ}
    (hok : allocBlockAndCopy stale sb s = .ok (blk, s')) :
    Filling sb m (images ++ [s'.fs]) s' := by
  have hleft : 0 ≤ s.dataLeft := Int.le_of_lt hmore.2
  rw [allocBlockAndCopy, if_pos hleft] at hok
  obtain ⟨⟨blk', bitmap⟩, hreserve, hok⟩ := bind_eq_ok hok
  obtain ⟨fs', hwrite, hok⟩ := bind_eq_ok hok
  obtain ⟨rfl, rfl⟩ := Prod.mk.inj (Except.ok.inj hok)
  obtain ⟨b, rfl, hb, hclear, hnext⟩ := h.reserve hr hmore.1 hreserve
  refine hnext.write hr hb hclear ?_ hwrite _ _
  split <;> omega

theorem Filling.direct (hr : Regions sb) {rest : List (Fin 4)} (h : Filling sb m images s)
    (hok : directLoopImages stale sb rest inode s images = .ok (inode', s', images')) :
    Filling sb m images' s' := by
  induction rest generalizing inode s images with
  | nil =>
    cases Except.ok.inj hok
    exact h
  | cons i rest ih =>
    rw [directLoopImages] at hok
    by_cases hmore : s.more
    · rw [if_pos hmore] at hok
      obtain ⟨⟨blk, s₁⟩, hstep, hok⟩ := bind_eq_ok hok
      exact ih (h.alloc hr hmore hstep) hok
    · rw [if_neg hmore] at hok
      cases Except.ok.inj hok
      exact h

theorem Filling.entries (hr : Regions sb) {j n : ℕ} {ptrs ptrs' : ℕ → BitVec 16}
    (h : Filling sb m images s)
    (hok : entryLoopImages stale sb j n ptrs s images = .ok (ptrs', s', images')) :
    Filling sb m images' s' := by
  induction n generalizing j ptrs s images with
  | zero =>
    cases Except.ok.inj hok
    exact h
  | succ n ih =>
    rw [entryLoopImages] at hok
    by_cases hmore : s.more
    · rw [if_pos hmore] at hok
      obtain ⟨⟨blk, s₁⟩, hstep, hok⟩ := bind_eq_ok hok
      exact ih (h.alloc hr hmore hstep) hok
    · rw [if_neg hmore] at hok
      cases Except.ok.inj hok
      exact h

theorem Filling.indirect (hr : Regions sb) {rest : List (Fin 9)} (h : Filling sb m images s)
    (hok : indirectLoopImages stale sb rest inode s images = .ok (inode', s', images')) :
    Filling sb m images' s' := by
  induction rest generalizing inode s images with
  | nil =>
    cases Except.ok.inj hok
    exact h
  | cons i rest ih =>
    rw [indirectLoopImages] at hok
    by_cases hmore : s.more
    · rw [if_pos hmore] at hok
      obtain ⟨⟨blk, bitmap⟩, hreserve, hok⟩ := bind_eq_ok hok
      obtain ⟨⟨ptrs, s₁, images₁⟩, hentries, hok⟩ := bind_eq_ok hok
      obtain ⟨fs', hwrite, hok⟩ := bind_eq_ok hok
      obtain ⟨b, rfl, hb, hclear, hnext⟩ := h.reserve hr hmore.1 hreserve
      have htable := (Filling.entries hr hnext hentries).write hr hb hclear (Nat.le_refl _) hwrite
        s₁.f s₁.dataLeft
      exact ih htable hok
    · rw [if_neg hmore] at hok
      cases Except.ok.inj hok
      exact h

end Copying

/-- How a call ends that adds the file: both bitmaps and the table are written over
an image in which only free blocks have changed, and no mark is lost. -/
structure Ending (sb : Superblock) (m : Memory) (front : List File) (fs₀ fs₁ fs₂ fs' : File)
    (ib db : Bitmap) (itab : InodeTable) : Prop where
  scribbled : ∀ image ∈ front ++ [fs₀], Scribbled sb m image.bytes
  inodes : ∀ i < sb.inodeCount, inodeBit sb m i = true → ib.test i = true
  blocks : ∀ b < sb.datablockCount, dataBit sb m b = true → db.test b = true
  stages : Stages sb ib db itab fs₀.bytes fs₁.bytes fs₂.bytes fs'.bytes

section Calls

variable {stale filename : Memory} {sb : Superblock} {fs fs' f : File} {n : ℕ}
variable {images : List File} {outcome : AddOutcome}

/-- The state in which the copying loops start. -/
theorem filling_start (hr : Regions sb) (fs f : File) (n p : ℕ) :
    Filling sb fs.bytes [fs.movedTo p] (AddOutcomes.copyStart sb fs f n p) := by
  have h := AddOutcomes.progress_start hr fs (fun _ => 0) f n p
  constructor
  case count => exact h.count
  case size => exact h.size
  case held =>
    intro b hb hheld
    exact (h.held_iff b hb).mpr (Or.inl hheld)
  case free => exact h.free
  case scribbled =>
    intro image himage
    rw [List.mem_singleton.mp himage]
    exact Scribbled.refl _ _
  case ends => exact ⟨[], rfl⟩

/-- The images a call of add_file writes one after another. -/
theorem addFileImages_spec (hg : Guarded sb fs.bytes)
    (hrun : addFileImages stale f filename n fs = .ok (outcome, fs', images)) :
    (outcome ≠ .added ∧ ∀ image ∈ images, Scribbled sb fs.bytes image.bytes) ∨
    (outcome = .added ∧ ∃ front fs₀ fs₁ fs₂ ib db itab,
      images = front ++ [fs₀, fs₁, fs₂, fs'] ∧
      Ending sb fs.bytes front fs₀ fs₁ fs₂ fs' ib db itab) := by
  have hr := hg.layout.regions
  have hcount := hg.inodeCount_le
  obtain ⟨-, hdata⟩ := hr.counts
  have hopened : ∀ p, ∀ image ∈ [fs.movedTo p], Scribbled sb fs.bytes image.bytes := by
    intro p image himage
    rw [List.mem_singleton.mp himage]
    exact Scribbled.refl _ _
  obtain ⟨p₁, p₂, p₃, p, hsb, hib, hdb, hit⟩ := hr.reads hg.superblock hg.valid
  simp only [addFileImages, hsb, ok_bind, hib, hdb, hit, fsGetFileInode_of_image] at hrun
  by_cases hfound : lookup filename (inodeTableOf sb fs.bytes) = none
  · rw [if_neg (not_not.mpr hfound)] at hrun
    obtain ⟨i, ib, hfirst, hreserve, hibsize, hibtest⟩ | ⟨-, hreserve⟩ :=
      inodeReserveFirstAvailable_spec (inodeTableOf sb fs.bytes)
        (bitmapOf_sized fs.bytes (sb.blockSize * sb.inodeBitmapStart) sb.inodeCount (by omega))
        (Nat.le_refl _)
    · have hfree := bitmapGetFreeBits_spec (bitmapOf_sized fs.bytes
        (sb.blockSize * sb.datablockBitmapStart) sb.datablockCount hdata)
      simp only [hreserve, ok_bind] at hrun
      obtain ⟨inode, -, hrun⟩ := bind_eq_ok hrun
      rw [hfree, ok_bind] at hrun
      obtain ⟨⟨inode₁, s₁, images₁⟩, hdirect, hrun⟩ := bind_eq_ok hrun
      obtain ⟨⟨inode₂, s₂, images₂⟩, hindirect, hrun⟩ := bind_eq_ok hrun
      have hfilled := ((filling_start hr fs f n p).direct hr hdirect).indirect hr hindirect
      simp only at hrun
      by_cases hleft : 0 < s₂.dataLeft
      · rw [if_pos hleft] at hrun
        cases Except.ok.inj hrun
        exact Or.inl ⟨by decide, hfilled.scribbled⟩
      · rw [if_neg hleft] at hrun
        obtain ⟨⟨fs₃, images₃⟩, hwrite, hrun⟩ := bind_eq_ok hrun
        cases Except.ok.inj hrun
        obtain ⟨fs₁, fs₂, himages, hstages⟩ := writeMetadataImages_ok hr hibsize hfilled.size rfl
          hwrite
        obtain ⟨front, hfront⟩ := hfilled.ends
        refine Or.inr ⟨rfl, front, s₂.fs, fs₁, fs₂, ib, s₂.datablockBitmap,
          inodePut (inodePut (inodeTableOf sb fs.bytes) i
            { (inodeTableOf sb fs.bytes).inode i with number := BitVec.ofInt 16 (i : ℤ) }) i inode₂,
          ?_, ?_⟩
        · rw [himages, hfront]
          simp
        · constructor
          case scribbled =>
            rw [← hfront]
            exact hfilled.scribbled
          case inodes =>
            intro j hj hbit
            rw [hibtest, FirstFit.reserve]
            by_cases hji : j = i
            · rw [hji, Function.update_self]
            · rw [Function.update_of_ne hji, bitmapOf_test hj]
              exact hbit
          case blocks => exact hfilled.held
          case stages => exact hstages
    · simp only [hreserve, ok_bind] at hrun
      cases Except.ok.inj hrun
      exact Or.inl ⟨by decide, hopened p⟩
  · rw [if_pos hfound] at hrun
    cases Except.ok.inj hrun
    exact Or.inl ⟨by decide, hopened p⟩

end Calls

section Endings

variable {sb : Superblock} {m : Memory} {front : List File} {fs₀ fs₁ fs₂ fs' : File}
variable {ib db : Bitmap} {itab : InodeTable}

/-- Until the second write nothing that is stored has changed. -/
theorem Ending.kept_first (hg : Guarded sb m)
    (h : Ending sb m front fs₀ fs₁ fs₂ fs' ib db itab) : Keeps sb m fs₁.bytes := by
  have hbounds := hg.layout.blockSize_bounds
  have hscribbled := keeps_of_scribbled hg.layout.regions (h.scribbled fs₀ (by simp))
  intro a ha
  rw [← hscribbled ha]
  rcases ha with ha | ha
  · exact h.stages.first_table hg.layout ha.1
  · exact (h.stages.after hg.layout (heldBytes_after (by omega) ha)).1

/-- Where the second write reaches into the table, it leaves the files if no inode in
use lies there. -/
theorem Ending.kept_second (hg : Guarded sb m)
    (h : Ending sb m front fs₀ fs₁ fs₂ fs' ib db itab)
    (hclear : ∀ i, Live sb m i →
      bitmapEnd sb sb.datablockBitmapStart sb.datablockCount ≤
        sb.blockSize * sb.inodeStart + inodeSize * i) : Keeps sb m fs₂.bytes := by
  have hbounds := hg.layout.blockSize_bounds
  have hscribbled := keeps_of_scribbled hg.layout.regions (h.scribbled fs₀ (by simp))
  intro a ha
  rcases ha with ha | ha
  · obtain ⟨j, hj, k, hk, rfl⟩ := slot_of_tableBytes ha
    exact h.stages.second_slot hg (h.kept_first hg) hj (hclear j) hk
  · rw [(h.stages.after hg.layout (heldBytes_after (by omega) ha)).2.1]
    exact hscribbled (Or.inr ha)

/-- The third write does not touch the blocks of the files. -/
theorem Ending.blocks_third (hl : Layout sb)
    (h : Ending sb m front fs₀ fs₁ fs₂ fs' ib db itab) {m₀ : Memory} :
    Set.EqOn fs'.bytes fs₂.bytes (heldBytes sb m₀) := by
  have hbounds := hl.blockSize_bounds
  intro a ha
  obtain ⟨-, h₂, h₃⟩ := h.stages.after hl (heldBytes_after (by omega) ha)
  rw [h₂, h₃]

variable {stale filename : Memory} {f : File} {n i : ℕ} {data tables : List ℕ}

/-- The new inode lies in one sector, so during the third write the image has the
files that were there before, or all of these and the new one. -/
theorem Ending.torn_third (hg : Guarded sb m)
    (h : Ending sb m front fs₀ fs₁ fs₂ fs' ib db itab)
    (hadded : Added stale sb f n filename i data tables m fs'.bytes)
    (hkept : Keeps sb m fs₂.bytes) (reached : ℕ → Bool) :
    Keeps sb m (torn 512 reached fs₂.bytes fs'.bytes) ∨
      Keeps sb fs'.bytes (torn 512 reached fs₂.bytes fs'.bytes) := by
  have hothers : ∀ a ∈ tableBytes sb, a ∈ slotBytes sb i ∨ fs'.bytes a = m a := by
    intro a ha
    obtain ⟨j, hj, k, hk, rfl⟩ := slot_of_tableBytes ha
    by_cases hji : j = i
    · exact Or.inl ⟨k, hk, by rw [hji]⟩
    · exact Or.inr (hadded.slots j hj hji k hk)
  rcases torn_slot hg.layout i reached fs₂.bytes fs'.bytes with hold | hnew
  · refine Or.inl ?_
    intro a ha
    rcases torn_cases 512 reached fs₂.bytes fs'.bytes a with hcase | hcase
    · rcases ha with ha | ha
      · rcases hothers a ha with hslot | hsame
        · rw [hold hslot, hkept (Or.inl ha)]
        · rw [hcase, hsame]
      · rw [hcase, h.blocks_third hg.layout ha, hkept (Or.inr ha)]
    · rw [hcase, hkept ha]
  · refine Or.inr ?_
    intro a ha
    rcases torn_cases 512 reached fs₂.bytes fs'.bytes a with hcase | hcase
    · exact hcase
    · rcases ha with ha | ha
      · rcases hothers a ha with hslot | hsame
        · exact hnew hslot
        · rw [hcase, hkept (Or.inl ha), hsame]
      · rw [hcase, h.blocks_third hg.layout ha]

/-- Wherever the padding of the data bitmap leaves the inodes in use alone, a call that
is stopped has kept all files, or all files and the new one. -/
theorem Ending.stopped (hg : Guarded sb m)
    (h : Ending sb m front fs₀ fs₁ fs₂ fs' ib db itab)
    (hadded : Added stale sb f n filename i data tables m fs'.bytes)
    (hclear : ∀ j, Live sb m j →
      bitmapEnd sb sb.datablockBitmapStart sb.datablockCount ≤
        sb.blockSize * sb.inodeStart + inodeSize * j) {m' : Memory}
    (hstop : Stop 512 ((front ++ [fs₀, fs₁, fs₂, fs']).map File.bytes) m') :
    Keeps sb m m' ∨ Keeps sb fs'.bytes m' := by
  have hkept₂ := h.kept_second hg hclear
  rw [List.map_append] at hstop
  rcases (show Stop 512 ((front.map File.bytes ++ [fs₀.bytes, fs₁.bytes]) ++
      [fs₂.bytes, fs'.bytes]) m' by simpa using hstop).last_write with hbefore | ⟨reached, rfl⟩
  · refine Or.inl (hbefore.of_forall ?_ fun old new reached => torn_eqOn reached)
    intro t ht
    simp only [List.append_assoc, List.cons_append, List.nil_append, List.mem_append,
      List.mem_map, List.mem_cons, List.not_mem_nil, or_false] at ht
    rcases ht with ⟨image, himage, rfl⟩ | rfl | rfl | rfl
    · exact keeps_of_scribbled hg.layout.regions (h.scribbled image (by simp [himage]))
    · exact keeps_of_scribbled hg.layout.regions (h.scribbled fs₀ (by simp))
    · exact h.kept_first hg
    · exact hkept₂
  · exact h.torn_third hg hadded hkept₂ reached

theorem Ending.grows_first (hg : Guarded sb m) (hs : Snug sb)
    (h : Ending sb m front fs₀ fs₁ fs₂ fs' ib db itab) : Grows sb ∅ ∅ m fs₁.bytes := by
  have hl := hg.layout
  have hgrows := grows_of_scribbled hl (h.scribbled fs₀ (by simp))
  constructor
  case keeps => exact h.kept_first hg
  case head =>
    intro a ha
    rw [(h.stages.head hl ha).1, hgrows.head a ha]
  case inodes =>
    intro i hi _ hbit
    rw [(h.stages.inodeBit hl hi).1]
    exact h.inodes i hi hbit
  case blocks =>
    intro b hb hB hbit
    rw [h.stages.dataBit_first hs]
    exact hgrows.blocks b hb hB hbit

theorem Ending.grows_second (hg : Guarded sb m) (hs : Snug sb)
    (h : Ending sb m front fs₀ fs₁ fs₂ fs' ib db itab) : Grows sb ∅ ∅ m fs₂.bytes := by
  have hl := hg.layout
  have hgrows := grows_of_scribbled hl (h.scribbled fs₀ (by simp))
  constructor
  case keeps => exact h.kept_second hg fun i _ => Nat.le_trans hs.blocks (Nat.le_add_right _ _)
  case head =>
    intro a ha
    rw [(h.stages.head hl ha).2.1, hgrows.head a ha]
  case inodes =>
    intro i hi _ hbit
    rw [(h.stages.inodeBit hl hi).2]
    exact h.inodes i hi hbit
  case blocks =>
    intro b hb _ hbit
    rw [h.stages.dataBit hl hb]
    exact h.blocks b hb hbit

/-- Where no padding leaves its region, a call that is stopped has kept all files and
marks, or these and the new ones. -/
theorem Ending.grows_stopped (hg : Guarded sb m) (hs : Snug sb)
    (h : Ending sb m front fs₀ fs₁ fs₂ fs' ib db itab)
    (hadded : Added stale sb f n filename i data tables m fs'.bytes) {m' : Memory}
    (hstop : Stop 512 ((front ++ [fs₀, fs₁, fs₂, fs']).map File.bytes) m') :
    Grows sb ∅ ∅ m m' ∨ Grows sb ∅ ∅ fs'.bytes m' := by
  have hl := hg.layout
  have hgrows₂ := h.grows_second hg hs
  rw [List.map_append] at hstop
  rcases (show Stop 512 ((front.map File.bytes ++ [fs₀.bytes, fs₁.bytes]) ++
      [fs₂.bytes, fs'.bytes]) m' by simpa using hstop).last_write with hbefore | ⟨reached, rfl⟩
  · refine Or.inl (hbefore.of_forall ?_ fun old new reached hold hnew => hold.torn hnew reached)
    intro t ht
    simp only [List.append_assoc, List.cons_append, List.nil_append, List.mem_append,
      List.mem_map, List.mem_cons, List.not_mem_nil, or_false] at ht
    rcases ht with ⟨image, himage, rfl⟩ | rfl | rfl | rfl
    · exact grows_of_scribbled hl (h.scribbled image (by simp [himage]))
    · exact grows_of_scribbled hl (h.scribbled fs₀ (by simp))
    · exact h.grows_first hg hs
    · exact hgrows₂
  · rcases h.torn_third hg hadded hgrows₂.keeps reached with hkept | hkept
    · exact Or.inl (hgrows₂.of_below hl hkept fun a ha => h.stages.torn_below reached ha)
    · refine Or.inr ((Grows.refl sb ∅ ∅ fs'.bytes).of_below hl hkept fun a ha => ?_)
      rw [h.stages.torn_below reached ha, h.stages.third_below ha]

end Endings

section Outcomes

variable {stale filename : Memory} {sb : Superblock} {fs fs' f : File} {n : ℕ}
variable {images : List File} {outcome : AddOutcome}

/-- add_file is atomic wherever it is stopped, at a write or with any sectors of it
done: what is stored is what was stored before the call or what is stored after
it. This is so exactly if the call adds nothing, or if no inode in use lies in the
padding that is written after the data bitmap. -/
theorem addFile_atomic_iff (hg : Guarded sb fs.bytes) (hn : n < 2 ^ 31)
    (hrun : addFileImages stale f filename n fs = .ok (outcome, fs', images)) :
    (∀ m, Stop 512 (images.map File.bytes) m →
      storeOf sb m = storeOf sb fs.bytes ∨ storeOf sb m = storeOf sb fs'.bytes) ↔
    (outcome = .added → ∀ j, Live sb fs.bytes j →
      bitmapEnd sb sb.datablockBitmapStart sb.datablockCount ≤
        sb.blockSize * sb.inodeStart + inodeSize * j) := by
  have hadd := addFile_of_images hrun
  rcases addFileImages_spec hg hrun with ⟨hfail, hscribbled⟩ |
    ⟨rfl, front, fs₀, fs₁, fs₂, ib, db, itab, himages, hend⟩
  · refine iff_of_true ?_ fun h => absurd h hfail
    intro m hstop
    refine Or.inl (Keeps.storeOf hg ?_)
    apply hstop.of_forall _ fun old new reached => torn_eqOn reached
    intro t ht
    obtain ⟨image, himage, rfl⟩ := List.mem_map.mp ht
    exact keeps_of_scribbled hg.layout.regions (hscribbled image himage)
  · rcases addFile_guarded hg stale filename f (show n < 2 ^ 32 by omega) with
      ⟨outcome', fs'', hok, hfail, -⟩ | ⟨hfresh, i, data, tables, fs'', hok, -, hadded⟩
    · rw [hadd] at hok
      cases hok
      exact absurd rfl hfail
    rw [hadd] at hok
    cases hok
    have hg' := hg.of_added hadded hn hfresh
    constructor
    · intro hatomic _ j hj
      by_contra hreach
      have hlost := hend.stages.lost hg (hend.kept_first hg) hj (by omega)
      have hmem : fs₂.bytes ∈ images.map File.bytes := by simp [himages]
      have hbefore : storeOf sb fs.bytes (inodeAt sb fs.bytes j).shownName ≠ none := by
        rw [(storeOf_eq_some_iff hg.names).mpr ⟨j, hj, rfl, rfl⟩]
        exact Option.some_ne_none _
      have hafter : storeOf sb fs'.bytes (inodeAt sb fs.bytes j).shownName ≠ none := by
        rw [(storeOf_eq_some_iff hg'.names).mpr ⟨j, (added_live_iff hg hadded j).mpr (Or.inl hj),
          by rw [(added_sameFile hg hadded hj).inode], rfl⟩]
        exact Option.some_ne_none _
      rcases hatomic fs₂.bytes (stop_of_mem 512 hmem) with h | h
      · rw [h] at hlost
        exact hbefore hlost
      · rw [h] at hlost
        exact hafter hlost
    · intro hclear m hstop
      rw [himages] at hstop
      rcases hend.stopped hg hadded (hclear rfl) hstop with hkept | hkept
      · exact Or.inl (Keeps.storeOf hg hkept)
      · exact Or.inr (Keeps.storeOf hg' hkept)

/-- Adding a second file to the small image: the padding of its data bitmap ends where the
inode table starts. -/
theorem addFile_atomic_large : ∃ fs' images,
    addFileImages (fun _ => 0) (zeroFile 100) (nameOf 98) 100 largeImage =
      .ok (.added, fs', images) ∧
    ∀ m, Stop 512 (images.map File.bytes) m →
      storeOf smallSuperblock m = storeOf smallSuperblock largeImage.bytes ∨
        storeOf smallSuperblock m = storeOf smallSuperblock fs'.bytes := by
  obtain ⟨images, hrun⟩ := exists_addFileImages (eq_of_succeeded
    (show succeeded (addFile (fun _ => 0) (zeroFile 100) (nameOf 98) 100 largeImage) = true by
      decide +kernel))
  refine ⟨_, images, hrun, (addFile_atomic_iff (guarded_of_wellFormed largeImage_wellFormed)
    (by decide) hrun).mpr ?_⟩
  intro _ j _
  exact Nat.le_trans smallSuperblock_snug.blocks (Nat.le_add_right _ _)

end Outcomes

end RathalOS.StoppedAdds
