import RathalOS.DeleteFile
import RathalOS.WriteBack
import RathalOS.AddedFiles

/-!
What delete_file does to a consistent image. It clears the bits at the pointers
of the inode and at the words it takes for the entries of the indirect blocks.
These words come from the block of the image, not of the data region, that has
the number of the indirect block, so they are the wrong ones unless the two
blocks happen to agree; files without indirect blocks are deleted exactly.
-/
namespace RathalOS.DeletedFiles

open ByteMemory ByteFile Blocks Bitmaps CStrings Superblocks Inodes FileAccess FirstFit Ownership
open Images EmptyImages WriteBack AddFile DeleteFile Allocation AddedFiles

/-- The bits at the listed indices have been cleared, in this order. -/
structure Released (l : List ℕ) (s s' : ReleaseState) : Prop where
  count : s'.datablockBitmap.count = s.datablockBitmap.count
  size : s'.datablockBitmap.size = s.datablockBitmap.size
  indexed : s'.indexed = s.indexed ++ l
  test : ∀ b, s'.datablockBitmap.test b = true ↔ s.datablockBitmap.test b = true ∧ b ∉ l

/-- The index lies inside the bits array. -/
def InArray (size idx : ℕ) : Prop := idx < 2 ^ 31 ∧ idx / 8 < size

def nonzero (l : List ℕ) : List ℕ := l.filter fun idx => decide (0 < idx)

section Releasing

variable {s s' s'' : ReleaseState} {l l' : List ℕ}

theorem Released.refl (s : ReleaseState) : Released [] s s where
  count := rfl
  size := rfl
  indexed := (List.append_nil _).symm
  test _ := by simp

theorem Released.trans (h : Released l s s') (h' : Released l' s' s'') :
    Released (l ++ l') s s'' where
  count := h'.count.trans h.count
  size := h'.size.trans h.size
  indexed := by rw [h'.indexed, h.indexed, List.append_assoc]
  test b := by
    rw [h'.test, h.test, List.mem_append, not_or, and_assoc]

theorem mem_nonzero {b : ℕ} : b ∈ nonzero l ↔ b ∈ l ∧ 0 < b := by
  simp [nonzero]

/-- One index: 0 is skipped, any other must lie inside the bits array. -/
theorem releaseBlock_cases (s : ReleaseState) (idx : ℕ) :
    (∃ s', releaseBlock s idx = .ok s' ∧ Released (nonzero [idx]) s s' ∧
      (0 < idx → InArray s.datablockBitmap.size idx)) ∨
    (releaseBlock s idx = .error .undefined ∧ 0 < idx ∧
      ¬ InArray s.datablockBitmap.size idx) := by
  by_cases hpos : 0 < idx
  · have hlist : nonzero [idx] = [idx] := by simp [nonzero, hpos]
    by_cases hin : InArray s.datablockBitmap.size idx
    · obtain ⟨bit, hget, hbit⟩ := bitmapGet_spec s.datablockBitmap idx hin.1
        (show idx < 8 * s.datablockBitmap.size by have := hin.2; omega)
      refine Or.inl ?_
      by_cases hzero : bit = 0
      · refine ⟨{ s with indexed := s.indexed ++ [idx] }, ?_, ?_, fun _ => hin⟩
        · simp only [releaseBlock, if_pos hpos, hget, ok_bind, hzero, ne_eq, not_true_eq_false,
            if_false]
        · rw [hlist]
          refine ⟨rfl, rfl, rfl, fun b => ?_⟩
          simp only [List.mem_singleton]
          refine ⟨fun hb => ⟨hb, ?_⟩, fun hb => hb.1⟩
          intro heq
          subst heq
          rw [hbit.mp hzero] at hb
          exact Bool.noConfusion hb
      · obtain ⟨bitmap, hset, hcount, hsize, htest⟩ := bitmapSet_spec
          s.datablockBitmap idx false hin.1
          (show idx < 8 * s.datablockBitmap.size by have := hin.2; omega)
        refine ⟨⟨bitmap, s.indexed ++ [idx]⟩, ?_, ?_, fun _ => hin⟩
        · simp only [releaseBlock, if_pos hpos, hget, ok_bind, ne_eq, hzero, not_false_eq_true,
            if_true, hset]
        · rw [hlist]
          refine ⟨hcount, hsize, rfl, fun b => ?_⟩
          change bitmap.test b = true ↔ _
          rw [htest, List.mem_singleton]
          by_cases hb : b = idx
          · rw [hb, Function.update_self]
            simp
          · rw [Function.update_of_ne hb]
            simp [hb]
    · refine Or.inr ⟨?_, hpos, hin⟩
      have hfault : bitmapGet s.datablockBitmap idx = .error .undefined := if_neg hin
      rw [releaseBlock, if_pos hpos, hfault, error_bind]
  · refine Or.inl ⟨s, by rw [releaseBlock, if_neg hpos], ?_, fun h => absurd h hpos⟩
    have hlist : nonzero [idx] = [] := by simp [nonzero, hpos]
    rw [hlist]
    exact Released.refl s

theorem nonzero_cons (idx : ℕ) (l : List ℕ) : nonzero (idx :: l) = nonzero [idx] ++ nonzero l := by
  rw [nonzero, nonzero, nonzero, ← List.filter_append]
  rfl

/-- A list of indices that returns has released exactly the ones that are not 0. -/
theorem releaseBlocks_ok (h : releaseBlocks l s = .ok s') : Released (nonzero l) s s' := by
  induction l generalizing s with
  | nil =>
    obtain rfl := Except.ok.inj h
    exact Released.refl _
  | cons idx rest ih =>
    obtain ⟨s₁, h₁, h₂⟩ := bind_eq_ok h
    obtain ⟨s₂, hok, hrel, -⟩ | ⟨hfault, -⟩ := releaseBlock_cases s idx
    · rw [h₁] at hok
      cases Except.ok.inj hok
      rw [nonzero_cons]
      exact hrel.trans (ih h₂)
    · rw [h₁] at hfault
      simp at hfault

/-- Indices inside the bits array can all be released. -/
theorem releaseBlocks_total (l : List ℕ) (s : ReleaseState)
    (h : ∀ idx ∈ nonzero l, InArray s.datablockBitmap.size idx) :
    ∃ s', releaseBlocks l s = .ok s' := by
  induction l generalizing s with
  | nil => exact ⟨s, rfl⟩
  | cons idx rest ih =>
    obtain ⟨s₁, hok, hrel, -⟩ | ⟨-, hpos, hout⟩ := releaseBlock_cases s idx
    · obtain ⟨s', hs'⟩ := ih s₁ (by
        intro k hk
        rw [hrel.size]
        exact h k (by rw [nonzero_cons]; exact List.mem_append_right _ hk))
      exact ⟨s', by rw [releaseBlocks, hok, ok_bind, hs']⟩
    · exact absurd (h idx (mem_nonzero.mpr ⟨List.mem_cons_self, hpos⟩)) hout

end Releasing

section IndirectBlocks

/-- The indices the loop over the indirect pointers uses, when the image holds m. -/
def indirectIndices (m : Memory) (bs : ℕ) (inode : Inode) (rest : List (Fin 9)) : List ℕ :=
  rest.flatMap fun i =>
    if 0 < (inode.indirectPtr i).toNat then
      nonzero [(inode.indirectPtr i).toNat] ++
        nonzero (words16 (advance m (bs * (inode.indirectPtr i).toNat)) (bs / 2))
    else []

variable {fs : File} {bs : ℕ} {inode : Inode} {stale : Memory}

/-- An indirect block number is a block of the image, so the block can be read. -/
def Readable (fs : File) (bs : ℕ) (inode : Inode) : Prop :=
  ∀ i, 0 < (inode.indirectPtr i).toNat → bs * (inode.indirectPtr i).toNat < 2 ^ 31 ∧
    bs * (inode.indirectPtr i).toNat + bs ≤ fs.size

theorem words16_congr {m m' : Memory} {n : ℕ} (h : ∀ t < 2 * n, m t = m' t) :
    words16 m n = words16 m' n := by
  apply List.map_congr_left
  intro j hj
  rw [List.mem_range] at hj
  rw [read16_congr (h _ (by omega)) (h _ (by omega))]

theorem readIndirect (stale : Memory) (hbs : 0 < bs) (hr : Readable fs bs inode) {i : Fin 9}
    (hi : 0 < (inode.indirectPtr i).toNat) (p : ℕ) :
    ∃ contents p', blockRead bs (inode.indirectPtr i).toNat stale (fs.movedTo p) =
        .ok (contents, fs.movedTo p') ∧
      words16 contents (bs / 2) =
        words16 (advance fs.bytes (bs * (inode.indirectPtr i).toNat)) (bs / 2) := by
  obtain ⟨p', hread⟩ := blockRead_spec stale (fs.movedTo p) hbs hi (hr i hi).1 (hr i hi).2
  refine ⟨_, p', hread, words16_congr ?_⟩
  intro t ht
  exact if_pos (by omega)

theorem releaseIndirect_ok (hbs : 0 < bs) (hr : Readable fs bs inode) {rest : List (Fin 9)}
    {s s' : ReleaseState} {fs' : File} {p : ℕ}
    (h : releaseIndirect stale bs inode rest s (fs.movedTo p) = .ok (s', fs')) :
    Released (indirectIndices fs.bytes bs inode rest) s s' ∧ ∃ p', fs' = fs.movedTo p' := by
  induction rest generalizing s p with
  | nil =>
    obtain ⟨rfl, rfl⟩ := Prod.mk.inj (Except.ok.inj h)
    exact ⟨Released.refl _, p, rfl⟩
  | cons i rest ih =>
    rw [indirectIndices, List.flatMap_cons]
    by_cases hi : 0 < (inode.indirectPtr i).toNat
    · rw [if_pos hi]
      simp only [releaseIndirect, if_pos hi] at h
      obtain ⟨s₁, h₁, h⟩ := bind_eq_ok h
      obtain ⟨contents, p', hread, hwords⟩ := readIndirect stale hbs hr hi p
      rw [hread, ok_bind] at h
      obtain ⟨s₂, h₂, h⟩ := bind_eq_ok h
      obtain ⟨hrest, hpos⟩ := ih h
      have hblock : Released (nonzero [(inode.indirectPtr i).toNat]) s s₁ := by
        apply releaseBlocks_ok
        rw [releaseBlocks, h₁]
        rfl
      have hentries := releaseBlocks_ok h₂
      rw [hwords] at hentries
      exact ⟨(hblock.trans hentries).trans hrest, hpos⟩
    · rw [if_neg hi]
      simp only [releaseIndirect, if_neg hi] at h
      exact ih h

theorem releaseIndirect_total (stale : Memory) (hbs : 0 < bs) (hr : Readable fs bs inode)
    (rest : List (Fin 9)) (s : ReleaseState) (p : ℕ)
    (h : ∀ idx ∈ indirectIndices fs.bytes bs inode rest, InArray s.datablockBitmap.size idx) :
    ∃ s' fs', releaseIndirect stale bs inode rest s (fs.movedTo p) = .ok (s', fs') := by
  induction rest generalizing s p with
  | nil => exact ⟨s, fs.movedTo p, rfl⟩
  | cons i rest ih =>
    rw [indirectIndices, List.flatMap_cons] at h
    by_cases hi : 0 < (inode.indirectPtr i).toNat
    · rw [if_pos hi] at h
      simp only [releaseIndirect, if_pos hi]
      obtain ⟨s₁, h₁, hrel₁, -⟩ | ⟨-, hpos, hout⟩ :=
        releaseBlock_cases s (inode.indirectPtr i).toNat
      · obtain ⟨contents, p', hread, hwords⟩ := readIndirect stale hbs hr hi p
        obtain ⟨s₂, h₂⟩ := releaseBlocks_total (words16 contents (bs / 2)) s₁ (by
          intro idx hidx
          rw [hwords] at hidx
          rw [hrel₁.size]
          exact h idx (List.mem_append_left _ (List.mem_append_right _ hidx)))
        obtain ⟨s', fs', hrest⟩ := ih s₂ p' (by
          intro idx hidx
          rw [(releaseBlocks_ok h₂).size, hrel₁.size]
          exact h idx (List.mem_append_right _ hidx))
        refine ⟨s', fs', ?_⟩
        rw [h₁, ok_bind, hread, ok_bind, h₂, ok_bind]
        exact hrest
      · refine absurd (h _ (List.mem_append_left _ (List.mem_append_left _ ?_))) hout
        exact mem_nonzero.mpr ⟨List.mem_singleton_self _, hpos⟩
    · rw [if_neg hi] at h
      simp only [releaseIndirect, if_neg hi]
      exact ih s p fun idx hidx => h idx (List.mem_append_right [] hidx)

end IndirectBlocks

/-- The indices at which delete_file accesses the data bitmap. -/
def indexedBy (sb : Superblock) (m : Memory) (inode : Inode) : List ℕ :=
  nonzero (List.ofFn fun k => (inode.directPtr k).toNat) ++
    indirectIndices m sb.blockSize inode (List.finRange 9)

/-- The image m' is the image m after the inode i has been cleared and the listed
bits with it. -/
structure Deleted (sb : Superblock) (i : ℕ) (l : List ℕ) (m m' : Memory) : Prop where
  head : ∀ a < sb.blockSize, m' a = m a
  cleared : ∀ k < inodeSize, m' (sb.blockSize * sb.inodeStart + inodeSize * i + k) = 0
  slots : ∀ j < sb.inodeCount, j ≠ i → ∀ k < inodeSize,
    m' (sb.blockSize * sb.inodeStart + inodeSize * j + k) =
      m (sb.blockSize * sb.inodeStart + inodeSize * j + k)
  inodeBits : ∀ j < sb.inodeCount, inodeBit sb m' j = true ↔ inodeBit sb m j = true ∧ j ≠ i
  dataBits : ∀ b < sb.datablockCount, dataBit sb m' b = true ↔ dataBit sb m b = true ∧ b ∉ l
  blocks : ∀ b, b ≠ 0 → blockData sb m' b = blockData sb m b

section Outcome

variable {sb : Superblock} {fs : File} {i : ℕ} {filename stale : Memory}

/-- Indirect blocks of the data region have numbers of blocks that can be read. -/
theorem readable_of_range (hr : Regions sb)
    (hcovers : sb.blockSize * (sb.datablocksStart + sb.datablockCount) ≤ fs.size) {inode : Inode}
    (hin : ∀ k, indirectAt inode k < sb.datablockCount) : Readable fs sb.blockSize inode := by
  intro k hk
  have hrange : (inode.indirectPtr k).toNat < sb.datablockCount := by
    rw [← indirectAt_fin]
    exact hin k
  obtain ⟨-, hend, hmax⟩ := hr.block_range hrange
  have hmono : sb.blockSize * (inode.indirectPtr k).toNat ≤
      sb.blockSize * (sb.datablocksStart + (inode.indirectPtr k).toNat) :=
    Nat.mul_le_mul_left _ (Nat.le_add_left _ _)
  have hbounds := hr.blockSize_bounds
  exact ⟨by omega, by omega⟩

theorem readable_image (hc : Consistent sb fs) (hi : Live sb fs.bytes i) :
    Readable fs sb.blockSize (inodeAt sb fs.bytes i) :=
  readable_of_range hc.layout.regions hc.covers fun k => hc.blocks.inRange i (.indirect k) hi

/-- Up to the release of the blocks delete_file cannot fail on a file that is found. -/
theorem deleteFile_eq (hc : Consistent sb fs)
    (hfound : lookup filename (inodeTableOf sb fs.bytes) = some i) (stale : Memory) :
    ∃ ib p, ib.size = (sb.inodeCount + 7) / 8 ∧
      (∀ j < sb.inodeCount, ib.test j = true ↔ inodeBit sb fs.bytes j = true ∧ j ≠ i) ∧
      deleteFile stale filename fs = (do
        let s ← releaseBlocks
          (List.ofFn fun k => ((inodeAt sb fs.bytes i).directPtr k).toNat)
          { datablockBitmap :=
              bitmapOf fs.bytes (sb.blockSize * sb.datablockBitmapStart) sb.datablockCount
            indexed := [] }
        let (s, fs₁) ← releaseIndirect stale sb.blockSize (inodeAt sb fs.bytes i)
          (List.finRange 9) s (fs.movedTo p)
        let fs₂ ← writeMetadata sb ib s.datablockBitmap
          (inodePut (inodeTableOf sb fs.bytes) i Inode.zero) fs₁
        .ok { outcome := .deleted, fs := fs₂, indexed := s.indexed }) := by
  obtain ⟨⟨hi, hlive⟩, -⟩ := lookup_live hfound
  have hcount := hc.inodeCount_le
  obtain ⟨p₁, p₂, p₃, p₄, hsb, hib, hdb, hit⟩ := hc.accessible.regions.reads hc.superblock hc.valid
  have hget : inodeGet (inodeTableOf sb fs.bytes) i = .ok (inodeAt sb fs.bytes i) := by
    rw [inodeGet, if_pos (by exact hi), inodeTableOf_inode hi]
  have hnumber : (inodeAt sb fs.bytes i).number.toNat = i := (hc.number i hi).resolve_left hlive
  obtain ⟨ib, hset, -, hsize, htest⟩ := bitmapSet_spec
    (bitmapOf fs.bytes (sb.blockSize * sb.inodeBitmapStart) sb.inodeCount) i false
    (by omega) (show i < 8 * ((sb.inodeCount + 7) / 8) by omega)
  refine ⟨ib, p₄, hsize, ?_, ?_⟩
  · intro j hj
    rw [htest]
    by_cases hji : j = i
    · rw [hji, Function.update_self]
      simp
    · rw [Function.update_of_ne hji, bitmapOf_test hj]
      simp only [hji, ne_eq, not_false_eq_true, and_true]
      rfl
  · simp only [deleteFile, hsb, ok_bind, hib, hdb, hit, fsGetFileInode_of_image, hfound, hget,
      hnumber, hset]

theorem deleteFile_ok (hc : Consistent sb fs)
    (hfound : lookup filename (inodeTableOf sb fs.bytes) = some i) {r : DeleteResult}
    (h : deleteFile stale filename fs = .ok r) :
    r.outcome = .deleted ∧ r.indexed = indexedBy sb fs.bytes (inodeAt sb fs.bytes i) ∧
      fs.size ≤ r.fs.size ∧
      Deleted sb i (indexedBy sb fs.bytes (inodeAt sb fs.bytes i)) fs.bytes r.fs.bytes := by
  have hl := hc.layout
  have hbounds := hl.blockSize_bounds
  obtain ⟨hi, -⟩ := lookup_live hfound
  obtain ⟨ib, p, hibsize, hibtest, heq⟩ := deleteFile_eq hc hfound stale
  rw [heq] at h
  obtain ⟨s₁, h₁, h⟩ := bind_eq_ok h
  obtain ⟨⟨s₂, fs₁⟩, h₂, h⟩ := bind_eq_ok h
  have hdirect := releaseBlocks_ok h₁
  obtain ⟨hindirect, p', hfs₁⟩ :=
    releaseIndirect_ok (show 0 < sb.blockSize by omega) (readable_image hc hi) h₂
  have hreleased := hdirect.trans hindirect
  obtain ⟨fs₂, hwrite, hback, hgrows⟩ := writeMetadata_spec ib s₂.datablockBitmap
    (inodePut (inodeTableOf sb fs.bytes) i Inode.zero) fs₁ hl hibsize hreleased.size rfl
  simp only [hwrite, ok_bind] at h
  obtain rfl := Except.ok.inj h
  subst hfs₁
  refine ⟨rfl, hreleased.indexed, hgrows, ?_⟩
  constructor
  · exact hback.head
  · intro k hk
    have hin : inodeSize * i + k < sb.inodeCount * inodeSize := by
      have := hi.1
      simp only [inodeSize] at hk ⊢
      omega
    simp only
    rw [Nat.add_assoc, hback.slot _ hin]
    have hput : (inodePut (inodeTableOf sb fs.bytes) i Inode.zero).inodes (inodeSize * i + k) =
        Inode.zero.toMemory k := by
      simp only [inodePut]
      rw [store_inside _ _ (by omega) (by omega), Nat.add_sub_cancel_left]
    rw [hput]
    simp [Inode.toMemory, Inode.zero, byteAt]
  · intro j hj hji k hk
    have hdiv := slot_div j hk
    have hin : inodeSize * j + k < sb.inodeCount * inodeSize := by
      simp only [inodeSize] at hk ⊢
      omega
    simp only
    rw [Nat.add_assoc, hback.slot _ hin, inodePut_outside _ _ (by rwa [hdiv])]
    exact if_pos hin
  · intro j hj
    simp only
    rw [hback.inodeBit j hj, hibtest j hj]
  · intro b hb
    simp only
    rw [hback.dataBit b hb, hreleased.test, bitmapOf_test hb]
    rfl
  · exact hback.block

theorem deleteFile_total (hc : Consistent sb fs)
    (hfound : lookup filename (inodeTableOf sb fs.bytes) = some i) (stale : Memory)
    (h : ∀ idx ∈ indexedBy sb fs.bytes (inodeAt sb fs.bytes i), idx < sb.datablockCount) :
    ∃ r, deleteFile stale filename fs = .ok r := by
  have hl := hc.layout
  have hbounds := hl.blockSize_bounds
  have hcount := hc.datablockCount_le
  obtain ⟨hi, -⟩ := lookup_live hfound
  obtain ⟨ib, p, hibsize, -, heq⟩ := deleteFile_eq hc hfound stale
  have harray : ∀ idx ∈ indexedBy sb fs.bytes (inodeAt sb fs.bytes i),
      InArray ((sb.datablockCount + 7) / 8) idx := by
    intro idx hidx
    have hlt := h idx hidx
    exact ⟨by omega, by omega⟩
  obtain ⟨s₁, h₁⟩ := releaseBlocks_total
    (List.ofFn fun k => ((inodeAt sb fs.bytes i).directPtr k).toNat)
    (⟨bitmapOf fs.bytes (sb.blockSize * sb.datablockBitmapStart) sb.datablockCount, []⟩)
    fun idx hidx => harray idx (List.mem_append_left _ hidx)
  have hdirect := releaseBlocks_ok h₁
  obtain ⟨s₂, fs₁, h₂⟩ := releaseIndirect_total stale
    (show 0 < sb.blockSize by omega) (readable_image hc hi) (List.finRange 9) s₁ p (by
      intro idx hidx
      rw [hdirect.size]
      exact harray idx (List.mem_append_right _ hidx))
  obtain ⟨hindirect, -⟩ :=
    releaseIndirect_ok (show 0 < sb.blockSize by omega) (readable_image hc hi) h₂
  obtain ⟨fs₂, hwrite, -⟩ := writeMetadata_spec ib s₂.datablockBitmap
    (inodePut (inodeTableOf sb fs.bytes) i Inode.zero) fs₁ hl hibsize
    (hdirect.trans hindirect).size rfl
  refine ⟨⟨.deleted, fs₂, s₂.indexed⟩, ?_⟩
  rw [heq, h₁, ok_bind, h₂]
  simp only [ok_bind, hwrite]

/-- Without a file of the name nothing is written. -/
theorem deleteFile_notPresent (hc : Consistent sb fs)
    (hfound : lookup filename (inodeTableOf sb fs.bytes) = none) (stale : Memory) :
    ∃ p, deleteFile stale filename fs = .ok ⟨.notPresent, fs.movedTo p, []⟩ := by
  obtain ⟨p₁, p₂, p₃, p₄, hsb, hib, hdb, hit⟩ := hc.accessible.regions.reads hc.superblock hc.valid
  refine ⟨p₄, ?_⟩
  simp only [deleteFile, hsb, ok_bind, hib, hdb, hit, fsGetFileInode_of_image, hfound]

end Outcome

/-- A word that delete_file takes for an entry of an indirect block: it lies in the
block of the image that has the number of the indirect block. -/
def Misread (sb : Superblock) (m : Memory) (inode : Inode) (w : ℕ) : Prop :=
  w ≠ 0 ∧ ∃ i j, indirectAt inode i ≠ 0 ∧ j < sb.blockSize / 2 ∧
    (read16 m (sb.blockSize * indirectAt inode i + 2 * j)).toNat = w

/-- The words read instead of the entries do no harm: none is out of range, no
block of another file is among those in use, and no entry is missing. -/
structure MisreadHarmless (sb : Superblock) (m : Memory) (inode : Inode) : Prop where
  inRange : ∀ w, Misread sb m inode w → w < sb.datablockCount
  own : ∀ w, Misread sb m inode w → dataBit sb m w = true → Owns sb m inode w
  complete : ∀ i j, entryAt sb m inode i j ≠ 0 → Misread sb m inode (entryAt sb m inode i j)

/-- delete_file returned true, freed exactly what the file i owned, cleared its inode,
and changed nothing that belongs to another file. -/
structure DeletesExactly (sb : Superblock) (fs : File) (i : ℕ) (r : DeleteResult) : Prop where
  outcome : r.outcome = .deleted
  dataBits : ∀ b < sb.datablockCount, dataBit sb r.fs.bytes b = true ↔
    dataBit sb fs.bytes b = true ∧ ¬ Owns sb fs.bytes (inodeAt sb fs.bytes i) b
  inodeBits : ∀ j < sb.inodeCount,
    inodeBit sb r.fs.bytes j = true ↔ inodeBit sb fs.bytes j = true ∧ j ≠ i
  cleared : ∀ k < inodeSize,
    r.fs.bytes (sb.blockSize * sb.inodeStart + inodeSize * i + k) = 0
  slots : ∀ j < sb.inodeCount, j ≠ i → ∀ k < inodeSize,
    r.fs.bytes (sb.blockSize * sb.inodeStart + inodeSize * j + k) =
      fs.bytes (sb.blockSize * sb.inodeStart + inodeSize * j + k)
  blocks : ∀ j, Live sb fs.bytes j → j ≠ i → ∀ b, Owns sb fs.bytes (inodeAt sb fs.bytes j) b →
    ∀ t < sb.blockSize, blockData sb r.fs.bytes b t = blockData sb fs.bytes b t
  indexed : ∀ idx ∈ r.indexed, idx < sb.datablockCount

section Exactness

variable {sb : Superblock} {fs : File} {i : ℕ} {filename stale : Memory} {inode : Inode}

theorem mem_words16 {m : Memory} {offset n w : ℕ} :
    w ∈ words16 (advance m offset) n ↔ ∃ j < n, (read16 m (offset + 2 * j)).toNat = w := by
  simp only [words16, List.mem_map, List.mem_range]
  rfl

theorem mem_indirectIndices {m : Memory} {w : ℕ} :
    w ∈ indirectIndices m sb.blockSize inode (List.finRange 9) ↔
      0 < w ∧ ((∃ k, indirectAt inode k = w) ∨ Misread sb m inode w) := by
  simp only [indirectIndices, List.mem_flatMap, List.mem_finRange, true_and]
  constructor
  · intro hlisted
    rcases hlisted with ⟨k, hk⟩
    by_cases hpos : 0 < (inode.indirectPtr k).toNat
    · rw [if_pos hpos] at hk
      rcases List.mem_append.mp hk with hk | hk
      · obtain ⟨hmem, hw⟩ := mem_nonzero.mp hk
        exact ⟨hw, Or.inl ⟨k, by rw [indirectAt_fin, List.mem_singleton.mp hmem]⟩⟩
      · obtain ⟨hmem, hw⟩ := mem_nonzero.mp hk
        obtain ⟨j, hj, hread⟩ := mem_words16.mp hmem
        rw [← indirectAt_fin] at hread hpos
        exact ⟨hw, Or.inr ⟨by omega, k, j, by omega, hj, hread⟩⟩
    · rw [if_neg hpos] at hk
      exact absurd hk List.not_mem_nil
  · intro hnamed
    rcases hnamed with ⟨hw, ⟨k, rfl⟩ | ⟨-, k, j, hk, hj, hread⟩⟩
    · have h9 := indirectAt_ne_zero_lt (show indirectAt inode k ≠ 0 by omega)
      rw [show k = ((⟨k, h9⟩ : Fin 9) : ℕ) from rfl, indirectAt_fin] at hw ⊢
      refine ⟨⟨k, h9⟩, ?_⟩
      rw [if_pos hw]
      exact List.mem_append_left _ (mem_nonzero.mpr ⟨List.mem_singleton_self _, hw⟩)
    · have h9 := indirectAt_ne_zero_lt hk
      rw [show k = ((⟨k, h9⟩ : Fin 9) : ℕ) from rfl, indirectAt_fin] at hk hread
      refine ⟨⟨k, h9⟩, ?_⟩
      rw [if_pos (by omega)]
      exact List.mem_append_right _ (mem_nonzero.mpr ⟨mem_words16.mpr ⟨j, hj, hread⟩, hw⟩)

theorem mem_indexedBy {m : Memory} {w : ℕ} :
    w ∈ indexedBy sb m inode ↔ 0 < w ∧
      ((∃ k, directAt inode k = w) ∨ (∃ k, indirectAt inode k = w) ∨ Misread sb m inode w) := by
  rw [indexedBy, List.mem_append, mem_indirectIndices, mem_nonzero, List.mem_ofFn]
  constructor
  · intro hnamed
    rcases hnamed with ⟨⟨k, rfl⟩, hw⟩ | ⟨hw, h⟩
    · exact ⟨hw, Or.inl ⟨k, directAt_fin _ k⟩⟩
    · exact ⟨hw, Or.inr h⟩
  · intro hnamed
    rcases hnamed with ⟨hw, ⟨k, rfl⟩ | h⟩
    · have h4 := directAt_ne_zero_lt (show directAt inode k ≠ 0 by omega)
      exact Or.inl ⟨⟨⟨k, h4⟩, (directAt_fin inode ⟨k, h4⟩).symm⟩, hw⟩
    · exact Or.inr ⟨hw, h⟩

/-- With harmless misreadings the bits in use that are cleared are those of the file. -/
theorem MisreadHarmless.mem_indexedBy_iff {m : Memory} (h : MisreadHarmless sb m inode) {b : ℕ}
    (hb : dataBit sb m b = true) : b ∈ indexedBy sb m inode ↔ Owns sb m inode b := by
  rw [mem_indexedBy]
  constructor
  · intro howned
    rcases howned with ⟨hpos, ⟨k, hk⟩ | ⟨k, hk⟩ | hw⟩
    · exact ⟨by omega, .direct k, hk⟩
    · exact ⟨by omega, .indirect k, hk⟩
    · exact h.own b hw hb
  · intro hnamed
    rcases hnamed with ⟨hne, p, hp⟩
    refine ⟨by omega, ?_⟩
    cases p with
    | direct k => exact Or.inl ⟨k, hp⟩
    | indirect k => exact Or.inr (Or.inl ⟨k, hp⟩)
    | entry k j =>
      change entryAt sb m inode k j = b at hp
      have hentry := h.complete k j (by omega)
      rw [hp] at hentry
      exact Or.inr (Or.inr hentry)

theorem MisreadHarmless.indexedBy_lt (hc : Consistent sb fs) (hi : Live sb fs.bytes i)
    (h : MisreadHarmless sb fs.bytes (inodeAt sb fs.bytes i)) :
    ∀ idx ∈ indexedBy sb fs.bytes (inodeAt sb fs.bytes i), idx < sb.datablockCount := by
  intro idx hidx
  obtain ⟨-, ⟨k, rfl⟩ | ⟨k, rfl⟩ | hw⟩ := mem_indexedBy.mp hidx
  · exact hc.blocks.inRange i (.direct k) hi
  · exact hc.blocks.inRange i (.indirect k) hi
  · exact h.inRange idx hw

/-- A block that a live file owns is in range and marked as held. -/
theorem owned_held (hc : Consistent sb fs) (hi : Live sb fs.bytes i) {b : ℕ}
    (hb : Owns sb fs.bytes (inodeAt sb fs.bytes i) b) :
    b < sb.datablockCount ∧ dataBit sb fs.bytes b = true := by
  obtain ⟨-, p, rfl⟩ := hb
  exact ⟨hc.blocks.inRange i p hi, hc.blocks.held_of_named hi⟩

/-- Harmless misreadings make the deletion exact. -/
theorem deleteFile_of_harmless (hc : Consistent sb fs)
    (hfound : lookup filename (inodeTableOf sb fs.bytes) = some i) (stale : Memory)
    (h : MisreadHarmless sb fs.bytes (inodeAt sb fs.bytes i)) :
    ∃ r, deleteFile stale filename fs = .ok r ∧ DeletesExactly sb fs i r ∧
      fs.size ≤ r.fs.size ∧ ∀ a < sb.blockSize, r.fs.bytes a = fs.bytes a := by
  obtain ⟨hi, -⟩ := lookup_live hfound
  have hlt := h.indexedBy_lt hc hi
  obtain ⟨r, hok⟩ := deleteFile_total hc hfound stale hlt
  obtain ⟨houtcome, hindexed, hsize, hdel⟩ := deleteFile_ok hc hfound hok
  refine ⟨r, hok, ?_, hsize, hdel.head⟩
  constructor
  case outcome => exact houtcome
  case dataBits =>
    intro b hb
    rw [hdel.dataBits b hb]
    exact and_congr_right fun hheld => not_congr (h.mem_indexedBy_iff hheld)
  case inodeBits => exact hdel.inodeBits
  case cleared => exact hdel.cleared
  case slots => exact hdel.slots
  case blocks =>
    rintro j - - b ⟨hb, -⟩ t -
    rw [hdel.blocks b hb]
  case indexed =>
    rw [hindexed]
    exact hlt

/-- An exact deletion shows that the misreadings were harmless. -/
theorem DeletesExactly.harmless (hc : Consistent sb fs)
    (hfound : lookup filename (inodeTableOf sb fs.bytes) = some i) {r : DeleteResult}
    (hok : deleteFile stale filename fs = .ok r) (hexact : DeletesExactly sb fs i r) :
    MisreadHarmless sb fs.bytes (inodeAt sb fs.bytes i) := by
  obtain ⟨hi, -⟩ := lookup_live hfound
  obtain ⟨-, hindexed, -, hdel⟩ := deleteFile_ok hc hfound hok
  have hmem : ∀ w, Misread sb fs.bytes (inodeAt sb fs.bytes i) w →
      w ∈ indexedBy sb fs.bytes (inodeAt sb fs.bytes i) :=
    fun w hw => mem_indexedBy.mpr ⟨Nat.pos_of_ne_zero hw.1, Or.inr (Or.inr hw)⟩
  have hlt : ∀ w, Misread sb fs.bytes (inodeAt sb fs.bytes i) w → w < sb.datablockCount := by
    intro w hw
    apply hexact.indexed w
    rw [hindexed]
    exact hmem w hw
  have hfreed : ∀ b < sb.datablockCount, dataBit sb fs.bytes b = true →
      (b ∈ indexedBy sb fs.bytes (inodeAt sb fs.bytes i) ↔
        Owns sb fs.bytes (inodeAt sb fs.bytes i) b) := by
    intro b hb hheld
    have hbits := (hdel.dataBits b hb).symm.trans (hexact.dataBits b hb)
    simp only [hheld, true_and] at hbits
    exact not_iff_not.mp hbits
  constructor
  · exact hlt
  · intro w hw hheld
    exact (hfreed w (hlt w hw) hheld).mp (hmem w hw)
  · intro k j hne
    have howns : Owns sb fs.bytes (inodeAt sb fs.bytes i)
        (entryAt sb fs.bytes (inodeAt sb fs.bytes i) k j) := ⟨hne, .entry k j, rfl⟩
    obtain ⟨hb, hheld⟩ := owned_held hc hi howns
    -- no other pointer of the file names this block, so it can only have been misread
    obtain ⟨-, ⟨l, hl⟩ | ⟨l, hl⟩ | hw⟩ := mem_indexedBy.mp ((hfreed _ hb hheld).mpr howns)
    · have heq := (hc.blocks.distinct i i (.entry k j) (.direct l) hi hi hne hl.symm).2
      exact Place.noConfusion heq
    · have heq := (hc.blocks.distinct i i (.entry k j) (.indirect l) hi hi hne hl.symm).2
      exact Place.noConfusion heq
    · exact hw

/-- A file without indirect blocks has nothing misread. -/
theorem harmless_of_direct {m : Memory} (h : ∀ k, indirectAt inode k = 0) :
    MisreadHarmless sb m inode := by
  have hnone : ∀ w, ¬ Misread sb m inode w := by
    intro w hlisted
    rcases hlisted with ⟨-, k, j, hk, -⟩
    exact hk (h k)
  constructor
  · exact fun w hw => (hnone w hw).elim
  · exact fun w hw => (hnone w hw).elim
  · intro k j hne
    exact absurd (entryAt_of_zero (h k) j) hne

/-- delete_file frees exactly what the file owned precisely when the words it reads
in place of the entries of the indirect blocks do no harm. -/
theorem deleteFile_exact_iff (hc : Consistent sb fs)
    (hfound : lookup filename (inodeTableOf sb fs.bytes) = some i) (stale : Memory) :
    (∃ r, deleteFile stale filename fs = .ok r ∧ DeletesExactly sb fs i r) ↔
      MisreadHarmless sb fs.bytes (inodeAt sb fs.bytes i) := by
  constructor
  · intro hdeletes
    rcases hdeletes with ⟨r, hok, hexact⟩
    exact hexact.harmless hc hfound hok
  · intro h
    obtain ⟨r, hok, hexact, -⟩ := deleteFile_of_harmless hc hfound stale h
    exact ⟨r, hok, hexact⟩

/-- Deleting a second, small file next to the large one. -/
theorem deleteFile_exact_small : ∃ fs' r,
    addFile (fun _ => 0) (zeroFile 100) (nameOf 98) 100 largeImage = .ok (.added, fs') ∧
    deleteFile (fun _ => 0) (nameOf 98) fs' = .ok r ∧
    DeletesExactly smallSuperblock fs' 2 r := by
  have hadd : addFile (fun _ => 0) (zeroFile 100) (nameOf 98) 100 largeImage =
      .ok (.added, imageOf (addFile (fun _ => 0) (zeroFile 100) (nameOf 98) 100 largeImage)) :=
    eq_of_succeeded (by decide +kernel)
  obtain ⟨-, hsize, i, data, tables, hadded⟩ :=
    added_of_addFile largeImage_wellFormed.toConsistent (by decide) hadd
  have hc := hadded.consistent largeImage_wellFormed.toConsistent hsize
  have hdirect : ∀ k : Fin 9, indirectAt (inodeAt smallSuperblock (imageOf
      (addFile (fun _ => 0) (zeroFile 100) (nameOf 98) 100 largeImage)).bytes 2) k = 0 := by
    decide +kernel
  have hfound : lookup (nameOf 98) (inodeTableOf smallSuperblock (imageOf
      (addFile (fun _ => 0) (zeroFile 100) (nameOf 98) 100 largeImage)).bytes) = some 2 := by
    decide +kernel
  have hnone : ∀ k, indirectAt (inodeAt smallSuperblock (imageOf
      (addFile (fun _ => 0) (zeroFile 100) (nameOf 98) 100 largeImage)).bytes 2) k = 0 := by
    intro k
    by_cases hk : k < 9
    · exact hdirect ⟨k, hk⟩
    · exact dif_neg hk
  obtain ⟨r, hok, hexact⟩ :=
    (deleteFile_exact_iff hc hfound (fun _ => 0)).mpr (harmless_of_direct hnone)
  exact ⟨_, r, hadd, hok, hexact⟩

/-- The large file is not deleted exactly: its last block is listed in its indirect
block, data block 5, but image block 5 is read, which holds file contents. -/
theorem deleteFile_large : WellFormed smallSuperblock largeImage ∧
    lookup (nameOf 97) (inodeTableOf smallSuperblock largeImage.bytes) = some 1 ∧
    ∀ stale, ¬ ∃ r, deleteFile stale (nameOf 97) largeImage = .ok r ∧
      DeletesExactly smallSuperblock largeImage 1 r := by
  have hfound : lookup (nameOf 97) (inodeTableOf smallSuperblock largeImage.bytes) = some 1 := by
    decide +kernel
  refine ⟨largeImage_wellFormed, hfound, ?_⟩
  intro stale hdeletes
  rcases hdeletes with ⟨r, hok, hexact⟩
  have hharmless := hexact.harmless largeImage_wellFormed.toConsistent hfound hok
  have hentry : entryAt smallSuperblock largeImage.bytes
      (inodeAt smallSuperblock largeImage.bytes 1) 0 0 = 6 := by decide +kernel
  have hread : ∀ k < 9, ∀ j < 256, indirectAt (inodeAt smallSuperblock largeImage.bytes 1) k ≠ 0 →
      (read16 largeImage.bytes
        (512 * indirectAt (inodeAt smallSuperblock largeImage.bytes 1) k + 2 * j)).toNat ≠ 6 := by
    decide +kernel
  obtain ⟨-, k, j, hk, hj, hw⟩ := hharmless.complete 0 0 (by rw [hentry]; decide)
  rw [hentry] at hw
  exact hread k (indirectAt_ne_zero_lt hk) j hj hk hw

end Exactness

section Preservation

variable {sb : Superblock} {fs : File} {i : ℕ} {r : DeleteResult}

theorem DeletesExactly.inodeAt (h : DeletesExactly sb fs i r) {j : ℕ} (hj : j < sb.inodeCount)
    (hji : j ≠ i) : inodeAt sb r.fs.bytes j = inodeAt sb fs.bytes j :=
  inodeAt_congr (h.slots j hj hji)

theorem DeletesExactly.inodeAt_self (h : DeletesExactly sb fs i r) :
    Images.inodeAt sb r.fs.bytes i = Inode.zero := inodeAt_cleared h.cleared

theorem DeletesExactly.live_iff (h : DeletesExactly sb fs i r) (j : ℕ) :
    Live sb r.fs.bytes j ↔ Live sb fs.bytes j ∧ j ≠ i := by
  by_cases hji : j = i
  · rw [hji]
    refine iff_of_false ?_ (by simp)
    intro hlive
    rcases hlive with ⟨-, hlive⟩
    rw [h.inodeAt_self] at hlive
    exact hlive rfl
  · simp only [hji, ne_eq, not_false_eq_true, and_true]
    refine and_congr_right fun hj => ?_
    rw [h.inodeAt hj hji]

/-- Every other file keeps its inode and its blocks. -/
theorem DeletesExactly.sameFile (h : DeletesExactly sb fs i r) {j : ℕ}
    (hj : Live sb fs.bytes j) (hji : j ≠ i) : SameFile sb fs.bytes r.fs.bytes j where
  inode := h.inodeAt hj.1 hji
  blocks := h.blocks j hj hji

/-- An exact deletion leaves the image well formed. -/
theorem DeletesExactly.wellFormed (hw : WellFormed sb fs) (hi : Live sb fs.bytes i)
    (h : DeletesExactly sb fs i r) (hsize : fs.size ≤ r.fs.size)
    (hhead : ∀ a < sb.blockSize, r.fs.bytes a = fs.bytes a) : WellFormed sb r.fs := by
  have hc := hw.toConsistent
  have hnumber : (Images.inodeAt sb fs.bytes i).number.toNat = i :=
    (hc.number i hi.1).resolve_left hi.2
  have hi0 : i ≠ 0 := by
    intro h0
    apply hi.2
    apply BitVec.eq_of_toNat_eq
    rw [hnumber, h0]
    rfl
  have hslots : ∀ j < sb.inodeCount, SlotConsistent sb r.fs.bytes j := by
    intro j hj
    have hbits := h.inodeBits j hj
    by_cases hji : j = i
    · subst hji
      refine ⟨Or.inl ?_, fun _ => h.inodeAt_self, ?_⟩
      · rw [h.inodeAt_self]
        rfl
      · rw [hbits, h.inodeAt_self]
        change _ ↔ j = 0 ∨ 0 = j
        omega
    · rw [and_iff_left hji] at hbits
      exact (hc.slot hj).congr (h.inodeAt hj hji) (Bool.eq_iff_iff.mpr hbits)
  constructor
  · apply hc.of_slots hsize hhead hslots
    apply hc.blocks.revoke i h.live_iff hi
    · intro j p hj hji
      rw [(h.sameFile hj hji).pointer]
    · intro b hb
      rw [h.dataBits b hb]
      refine and_congr_right fun _ => ⟨fun hown p hp hpb => hown ?_, ?_⟩
      · exact ⟨hpb ▸ hp, p, hpb⟩
      · intro hfree howned
        rcases howned with ⟨hne, p, hpb⟩
        exact hfree p (by rwa [hpb]) hpb
  · refine hw.names.setSlot (fun j hj hji => h.inodeAt hj hji) fun hdeleted => ?_
    exact absurd rfl ((h.live_iff i).mp hdeleted).2
  · intro j hj
    obtain ⟨hj, hji⟩ := (h.live_iff j).mp hj
    exact (h.sameFile hj hji).sizeExact (hw.sizes j hj)

end Preservation

end RathalOS.DeletedFiles
