import RathalOS.Reservations
import Mathlib.Data.List.GetD
import Mathlib.Data.List.Nodup

/-!
The copying loops of add_file. The invariant names the blocks taken so far: the
data blocks in file order and the indirect blocks in table order. They are
distinct, were free before, and are the only bytes of the image that changed.
A reservation, a copied block and a written table each keep the invariant, and
the three loops only do these.
-/
namespace RathalOS.Allocation

open ByteMemory ByteFile Blocks Bitmaps Superblocks Inodes Images AddFile FirstFit Reservations

/-- Byte t of the k-th block copied from a host file: the file goes on where it
was opened, past its end the buffer is kept, and the last block is padded. -/
def copiedByte (stale : Memory) (f : File) (bs n k t : ℕ) : Byte :=
  if k * bs + t < n then
    if f.pos + (k * bs + t) < f.size then f.bytes (f.pos + (k * bs + t)) else stale t
  else 0

/-- The copy so far of n bytes of f₀ into an image that started as fs₀ with the
given blocks held. The first `full` tables have been written to their blocks. -/
structure Progress (stale : Memory) (sb : Superblock) (held : ℕ → Bool) (fs₀ f₀ : File) (n : ℤ)
    (data tables : List ℕ) (full : ℕ) (s : CopyState) : Prop where
  count : s.datablockBitmap.count = sb.datablockCount
  size : s.datablockBitmap.size = (sb.datablockCount + 7) / 8
  held_iff : ∀ b < sb.datablockCount,
    s.datablockBitmap.test b = true ↔ held b = true ∨ b ∈ data ++ tables
  distinct : (data ++ tables).Nodup
  fresh : ∀ b ∈ data ++ tables, b < sb.datablockCount ∧ held b = false
  free : s.freeDatablocks = (freeCount s.datablockBitmap.test sb.datablockCount : ℤ)
  left : s.dataLeft = n - (min n.toNat (data.length * sb.blockSize) : ℕ)
  source : s.f = f₀.movedTo
    (f₀.pos + min (min n.toNat (data.length * sb.blockSize)) (f₀.size - f₀.pos))
  data_le : data.length ≤ blocksFor sb n.toNat
  tables_needed : ∀ i < tables.length, 4 + i * (sb.blockSize / 2) < blocksFor sb n.toNat
  grows : fs₀.size ≤ s.fs.size
  frame : ∀ a, (∀ b ∈ data ++ tables, a / sb.blockSize ≠ sb.datablocksStart + b) →
    s.fs.bytes a = fs₀.bytes a
  stored : ∀ k < data.length, ∀ t < sb.blockSize,
    blockData sb s.fs.bytes (data.getD k 0) t = copiedByte stale f₀ sb.blockSize n.toNat k t
  listed : ∀ i < full, ∀ j < sb.blockSize / 2,
    read16 (blockData sb s.fs.bytes (tables.getD i 0)) (2 * j) =
      BitVec.ofNat 16 (data.getD (4 + i * (sb.blockSize / 2) + j) 0)

section Lists

variable {l : List ℕ} {i j : ℕ}

theorem getD_mem (h : i < l.length) : l.getD i 0 ∈ l := by
  rw [List.getD_eq_getElem l 0 h]
  exact List.getElem_mem h

theorem getD_concat_self (l : List ℕ) (a : ℕ) : (l ++ [a]).getD l.length 0 = a := by
  rw [List.getD_append_right l [a] 0 l.length (Nat.le_refl _), Nat.sub_self]
  rfl

theorem getD_concat (l : List ℕ) (a i : ℕ) :
    (l ++ [a]).getD i 0 = if i = l.length then a else l.getD i 0 := by
  by_cases hi : i = l.length
  · rw [if_pos hi, hi, getD_concat_self]
  · rw [if_neg hi]
    by_cases hlt : i < l.length
    · exact List.getD_append _ _ 0 i hlt
    · rw [List.getD_eq_default _ 0 (by simp; omega), List.getD_eq_default _ 0 (by omega)]

theorem getD_extended {l' : List ℕ} (h : l <+: l') (hi : i < l.length) :
    l'.getD i 0 = l.getD i 0 := by
  obtain ⟨r, rfl⟩ := h
  exact List.getD_append _ _ 0 i hi

/-- Numbers below 65536 survive in 16 bits. -/
theorem ofNat_getD_toNat (h : ∀ b ∈ l, b < 65536) (i : ℕ) :
    (BitVec.ofNat 16 (l.getD i 0)).toNat = l.getD i 0 := by
  rw [BitVec.toNat_ofNat]
  apply Nat.mod_eq_of_lt
  by_cases hi : i < l.length
  · exact h _ (getD_mem hi)
  · rw [List.getD_eq_default _ 0 (by omega)]
    omega

theorem getD_inj (hnodup : l.Nodup) (hi : i < l.length) (hj : j < l.length)
    (h : l.getD i 0 = l.getD j 0) : i = j := by
  rw [List.getD_eq_getElem l 0 hi, List.getD_eq_getElem l 0 hj] at h
  exact hnodup.getElem_inj_iff.mp h

end Lists

section Geometry

variable {sb : Superblock}

/-- A block is still needed exactly while some bytes are left. -/
theorem lt_blocksFor_iff (hbs : 0 < sb.blockSize) (k n : ℕ) :
    k < blocksFor sb n ↔ k * sb.blockSize < n := by
  unfold blocksFor
  rw [Nat.lt_iff_add_one_le, Nat.le_div_iff_mul_le hbs, Nat.add_mul]
  omega

theorem block_index (hbs : 0 < sb.blockSize) (b : ℕ) {t : ℕ} (ht : t < sb.blockSize) :
    (sb.blockSize * (sb.datablocksStart + b) + t) / sb.blockSize = sb.datablocksStart + b ∧
    (sb.blockSize * (sb.datablocksStart + b) + t) % sb.blockSize = t := by
  constructor
  · exact (div_eq_iff_mem_block hbs).mpr (by omega)
  · rw [Nat.mul_add_mod, Nat.mod_eq_of_lt ht]

/-- A write of at most one block to a data block. -/
theorem write_block (hr : Regions sb) {b len : ℕ} (hb : b < sb.datablockCount) (data : Memory)
    (fs : File) (hlen : 0 < len) (hle : len ≤ sb.blockSize) :
    ∃ fs', blocksWrite sb.blockSize (uintOfInt (sb.datablocksStart + (b : ℤ))) data len fs =
        .ok fs' ∧
      (∀ t < sb.blockSize, blockData sb fs'.bytes b t = if t < len then data t else 0) ∧
      (∀ a, a / sb.blockSize ≠ sb.datablocksStart + b → fs'.bytes a = fs.bytes a) ∧
      fs.size ≤ fs'.size := by
  have hbounds := hr.blockSize_bounds
  obtain ⟨hstart, hend, hmax⟩ := hr.block_range hb
  have hindex : uintOfInt (sb.datablocksStart + (b : ℤ)) = sb.datablocksStart + b := by
    have hle : sb.datablocksStart + b ≤ sb.blockSize * (sb.datablocksStart + b) :=
      Nat.le_mul_of_pos_left _ (by omega)
    rw [← Nat.cast_add, uintOfInt_natCast (by omega)]
  obtain ⟨fs', hok, hbytes, hsize⟩ := blocksWrite_block (sb.datablocksStart + b)
    data fs hlen hle (by omega)
  refine ⟨fs', by rw [hindex, hok], ?_, ?_, by omega⟩
  · intro t ht
    obtain ⟨hdiv, hmod⟩ := block_index (by omega) b ht
    rw [blockData, advance_apply, hbytes, if_pos hdiv, hmod]
  · intro a ha
    rw [hbytes, if_neg ha]

/-- A block that was not written to keeps its contents. -/
theorem blockData_frame (hbs : 0 < sb.blockSize) {m m' : Memory} {b : ℕ}
    (h : ∀ a, a / sb.blockSize = sb.datablocksStart + b → m' a = m a) :
    ∀ t < sb.blockSize, blockData sb m' b t = blockData sb m b t := by
  intro t ht
  exact h _ (block_index hbs b ht).1

theorem read16_block_congr {m m' : Memory} {b b' j : ℕ} (hj : j < sb.blockSize / 2)
    (h : ∀ t < sb.blockSize, blockData sb m' b' t = blockData sb m b t) :
    read16 (blockData sb m' b') (2 * j) = read16 (blockData sb m b) (2 * j) :=
  read16_congr (h _ (by omega)) (h _ (by omega))

end Geometry

section Steps

variable {stale : Memory} {sb : Superblock} {held : ℕ → Bool} {fs₀ f₀ : File} {n : ℤ}
variable {data tables : List ℕ} {full : ℕ} {s : CopyState}

theorem Progress.sized (h : Progress stale sb held fs₀ f₀ n data tables full s) (hr : Regions sb) :
    s.datablockBitmap.Sized := by
  have hbounds := hr.blockSize_bounds
  have hfull := Nat.mul_le_mul_right sb.datablockCount hbounds.1
  have hmax := hr.offsets.2.2.2.2
  constructor
  · rw [h.count]
    omega
  · rw [h.count, h.size]
    omega

theorem Progress.taken
    (h : Progress stale sb held fs₀ f₀ n data tables full s) :
    Taken held s.datablockBitmap.test sb.datablockCount (data ++ tables) where
  held_iff := h.held_iff
  distinct := h.distinct
  fresh := h.fresh

/-- While free blocks are left the bitmap yields one of them. -/
theorem Progress.reserve (h : Progress stale sb held fs₀ f₀ n data tables full s) (hr : Regions sb)
    (hfree : 0 < s.freeDatablocks) :
    ∃ (blk : ℕ) (bitmap : Bitmap),
      bitmapReserveFirstAvailableBit s.datablockBitmap = .ok ((blk : ℤ), bitmap) ∧
      firstFree s.datablockBitmap.test sb.datablockCount = some blk ∧
      blk < sb.datablockCount ∧ held blk = false ∧ blk ∉ data ++ tables ∧
      bitmap.count = sb.datablockCount ∧ bitmap.size = (sb.datablockCount + 7) / 8 ∧
      (∀ b < sb.datablockCount,
        bitmap.test b = true ↔ held b = true ∨ b ∈ data ++ tables ∨ b = blk) ∧
      s.freeDatablocks - 1 = (freeCount bitmap.test sb.datablockCount : ℤ) := by
  have hpos : 0 < freeCount s.datablockBitmap.test s.datablockBitmap.count := by
    have hcast := h.free
    rw [h.count]
    omega
  obtain ⟨blk, bitmap, hfirst, hok, hcount, hsize, htest⟩ | ⟨hnone, -⟩ :=
    bitmapReserveFirstAvailableBit_spec (h.sized hr)
  · obtain ⟨hlt, hclear, -⟩ := firstFree_some hfirst
    rw [h.count] at hfirst hlt hcount
    have hunheld : ¬ (held blk = true ∨ blk ∈ data ++ tables) := by
      rw [← h.held_iff blk hlt, hclear]
      decide
    have hused := freeCount_reserve hlt hclear
    refine ⟨blk, bitmap, hok, hfirst, hlt, ?_, fun hmem => hunheld (Or.inr hmem), hcount, by
      rw [hsize, h.size], ?_, ?_⟩
    · cases hb : held blk with
      | false => rfl
      | true => exact absurd (Or.inl hb) hunheld
    · intro b hb
      rw [htest, FirstFit.reserve]
      by_cases hbb : b = blk
      · rw [hbb, Function.update_self]
        exact iff_of_true rfl (Or.inr (Or.inr rfl))
      · rw [Function.update_of_ne hbb, h.held_iff b hb]
        constructor
        · intro hb
          rcases hb with hb | hb
          · exact Or.inl hb
          · exact Or.inr (Or.inl hb)
        · intro hb
          rcases hb with hb | hb | hb
          · exact Or.inl hb
          · exact Or.inr hb
          · exact absurd hb hbb
    · rw [h.free, htest]
      omega
  · obtain ⟨i, hi⟩ := exists_firstFree hpos
    simp [hi] at hnone

theorem Progress.more_iff (h : Progress stale sb held fs₀ f₀ n data tables full s)
    (hbs : 0 < sb.blockSize) : 0 < s.dataLeft ↔ data.length < blocksFor sb n.toNat := by
  rw [lt_blocksFor_iff hbs, h.left]
  omega

/-- The bytes the next read yields are the next ones to be copied. -/
theorem fread_copied {f : File} {bs k t len : ℕ} (htlen : t < len)
    (ht : k * bs + t < n.toNat) (hpos : k * bs ≤ n.toNat) (hs : s.f = f.movedTo
      (f.pos + min (min n.toNat (k * bs)) (f.size - f.pos))) :
    (s.f.fread len stale).1 t = copiedByte stale f bs n.toNat k t := by
  rw [copiedByte, if_pos ht, File.fread_fst]
  have hcur : s.f.pos = f.pos + min (k * bs) (f.size - f.pos) := by
    rw [hs, Nat.min_eq_right hpos]
    rfl
  have hsize : s.f.size = f.size := by rw [hs]; rfl
  by_cases hin : f.pos + (k * bs + t) < f.size
  · rw [if_pos ⟨htlen, by omega⟩, if_pos hin, show s.f.pos + t = f.pos + (k * bs + t) by omega, hs]
    rfl
  · rw [if_neg (by omega), if_neg hin]

/-- What both kinds of reservation leave: one more block is taken, last in its list. -/
theorem Progress.extended (h : Progress stale sb held fs₀ f₀ n data tables full s) {blk : ℕ}
    (hlt : blk < sb.datablockCount) (hclear : held blk = false) (hnew : blk ∉ data ++ tables)
    (data' tables' : List ℕ) (hperm : (data' ++ tables').Perm (blk :: (data ++ tables))) :
    (data' ++ tables').Nodup ∧
      (∀ b ∈ data' ++ tables', b < sb.datablockCount ∧ held b = false) ∧
      ∀ b, b ∈ data' ++ tables' ↔ b ∈ data ++ tables ∨ b = blk := by
  have hmem : ∀ b, b ∈ data' ++ tables' ↔ b ∈ data ++ tables ∨ b = blk := by
    intro b
    rw [hperm.mem_iff, List.mem_cons, or_comm]
  refine ⟨hperm.nodup_iff.mpr (List.nodup_cons.mpr ⟨hnew, h.distinct⟩), ?_, hmem⟩
  intro b hb
  rcases (hmem b).mp hb with hb | rfl
  · exact h.fresh b hb
  · exact ⟨hlt, hclear⟩

/-- Copying one more block of the contents keeps the invariant. The tables written
so far are complete, so they already list their last entry. -/
theorem allocBlockAndCopy_step (h : Progress stale sb held fs₀ f₀ n data tables full s)
    (hr : Regions sb) (hn : n < 2 ^ 31)
    (hmore : s.more) (hfull : full ≤ tables.length)
    (hcomplete : full = 0 ∨ 4 + full * (sb.blockSize / 2) ≤ data.length) :
    ∃ (blk : ℕ) (s' : CopyState), allocBlockAndCopy stale sb s = .ok ((blk : ℤ), s') ∧
      firstFree s.datablockBitmap.test sb.datablockCount = some blk ∧
      Progress stale sb held fs₀ f₀ n (data ++ [blk]) tables full s' := by
  have hbounds := hr.blockSize_bounds
  have hbs : 0 < sb.blockSize := by omega
  have hneed := (h.more_iff hbs).mp hmore.2
  have hpos := (lt_blocksFor_iff hbs _ _).mp hneed
  obtain ⟨blk, bitmap, hreserve, hfirst, hlt, hclear, hnew, hcount, hsize, htest, hfree⟩ :=
    h.reserve hr hmore.1
  have hleft : s.dataLeft = (n.toNat - data.length * sb.blockSize : ℕ) := by
    rw [h.left]
    omega
  have huint : uintOfInt s.dataLeft = n.toNat - data.length * sb.blockSize := by
    rw [hleft]
    exact uintOfInt_natCast (by omega)
  let len := if sb.blockSize ≤ uintOfInt s.dataLeft then sb.blockSize else uintOfInt s.dataLeft
  have hlen : len = min sb.blockSize (n.toNat - data.length * sb.blockSize) := by
    simp only [len, huint]
    split <;> omega
  obtain ⟨fs', hwrite, hblock, hframe, hgrows⟩ := write_block hr hlt
    (s.f.fread len stale).1 s.fs (by omega : 0 < len) (by omega)
  obtain ⟨hnodup, hfresh, hmem⟩ := h.extended hlt hclear hnew (data ++ [blk]) tables (by simp)
  have hkept : ∀ b ∈ data ++ tables, ∀ t < sb.blockSize,
      blockData sb fs'.bytes b t = blockData sb s.fs.bytes b t := by
    intro b hb
    apply blockData_frame hbs
    intro a ha
    apply hframe
    have hne : b ≠ blk := fun heq => hnew (heq ▸ hb)
    omega
  refine ⟨blk, ⟨bitmap, s.dataLeft - len, s.freeDatablocks - 1, (s.f.fread len stale).2, fs'⟩,
    ?_, hfirst, ?_⟩
  · rw [allocBlockAndCopy, if_pos (by rw [h.left]; omega)]
    simp only [hreserve, ok_bind]
    rw [hwrite]
    rfl
  · constructor
    case count => exact hcount
    case size => exact hsize
    case held_iff =>
      intro b hb
      rw [htest b hb, hmem]
    case distinct => exact hnodup
    case fresh => exact hfresh
    case free => exact hfree
    case left =>
      change s.dataLeft - (len : ℤ) = _
      rw [hleft, List.length_append, List.length_singleton, Nat.add_mul]
      omega
    case source =>
      rw [List.length_append, List.length_singleton, Nat.add_mul]
      change (s.f.fread len stale).2 = _
      rw [h.source, File.fread_snd, File.movedTo_movedTo]
      congr 1
      simp only [File.movedTo_pos, File.movedTo_size]
      omega
    case data_le =>
      rw [List.length_append, List.length_singleton]
      omega
    case tables_needed => exact h.tables_needed
    case grows => exact Nat.le_trans h.grows hgrows
    case frame =>
      intro a ha
      rw [hframe a (ha blk ((hmem blk).mpr (Or.inr rfl)))]
      exact h.frame a fun b hb => ha b ((hmem b).mpr (Or.inl hb))
    case stored =>
      intro k hk t ht
      rw [List.length_append, List.length_singleton] at hk
      by_cases hkd : k < data.length
      · rw [List.getD_append _ _ 0 k hkd, hkept _ (List.mem_append_left _ (getD_mem hkd)) t ht]
        exact h.stored k hkd t ht
      · have hkeq : k = data.length := by omega
        rw [hkeq, getD_concat_self, hblock t ht]
        by_cases htl : t < len
        · rw [if_pos htl]
          exact fread_copied htl (by omega) (by omega) h.source
        · rw [if_neg htl, copiedByte, if_neg (by omega)]
    case listed =>
      intro i hi j hj
      have hlast : i * (sb.blockSize / 2) + (sb.blockSize / 2) ≤ full * (sb.blockSize / 2) := by
        rw [← Nat.succ_mul]
        exact Nat.mul_le_mul_right _ hi
      rw [List.getD_append _ _ 0 _ (by omega), ← h.listed i hi j hj]
      exact read16_block_congr hj
        (hkept _ (List.mem_append_right _ (getD_mem (Nat.lt_of_lt_of_le hi hfull))))

/-- Reserving the block of the next table keeps the invariant. -/
theorem reserveTable_step (h : Progress stale sb held fs₀ f₀ n data tables full s) (hr : Regions sb)
    (hmore : s.more) (hfull : full ≤ tables.length)
    (hnext : data.length = 4 + tables.length * (sb.blockSize / 2)) :
    ∃ (blk : ℕ) (bitmap : Bitmap),
      bitmapReserveFirstAvailableBit s.datablockBitmap = .ok ((blk : ℤ), bitmap) ∧
      firstFree s.datablockBitmap.test sb.datablockCount = some blk ∧
      Progress stale sb held fs₀ f₀ n data (tables ++ [blk]) full
        { s with datablockBitmap := bitmap, freeDatablocks := s.freeDatablocks - 1 } := by
  have hbounds := hr.blockSize_bounds
  have hneed := (h.more_iff (by omega)).mp hmore.2
  obtain ⟨blk, bitmap, hreserve, hfirst, hlt, hclear, hnew, hcount, hsize, htest, hfree⟩ :=
    h.reserve hr hmore.1
  obtain ⟨hnodup, hfresh, hmem⟩ := h.extended hlt hclear hnew data (tables ++ [blk])
    (by rw [← List.append_assoc]; exact List.perm_append_singleton _ _)
  refine ⟨blk, bitmap, hreserve, hfirst, ?_⟩
  refine { h with
    count := hcount, size := hsize, distinct := hnodup, fresh := hfresh, free := hfree
    held_iff := ?held_iff, tables_needed := ?tables_needed, frame := ?frame, listed := ?listed }
  case held_iff =>
    intro b hb
    rw [htest b hb, hmem]
  case tables_needed =>
    intro i hi
    rw [List.length_append, List.length_singleton] at hi
    by_cases hit : i < tables.length
    · exact h.tables_needed i hit
    · have heq : i = tables.length := by omega
      rw [heq]
      omega
  case frame =>
    intro a ha
    exact h.frame a fun b hb => ha b ((hmem b).mpr (Or.inl hb))
  case listed =>
    intro i hi j hj
    rw [List.getD_append _ _ 0 _ (Nat.lt_of_lt_of_le hi hfull)]
    exact h.listed i hi j hj

/-- The words of a written array of pointers are the pointers. -/
theorem read16_pointerBytes {m : Memory} {ptrs : ℕ → BitVec 16} {n j : ℕ} (hj : j < n / 2)
    (h : ∀ t < n, m t = pointerBytes ptrs t) : read16 m (2 * j) = ptrs j := by
  apply read16_byteAt
  · rw [h _ (by omega), pointerBytes, show 2 * j / 2 = j by omega, show 2 * j % 2 = 0 by omega]
  · rw [h _ (by omega), pointerBytes, show (2 * j + 1) / 2 = j by omega,
      show (2 * j + 1) % 2 = 1 by omega]

/-- Writing the last reserved table to its block keeps the invariant. -/
theorem writeTable_step (h : Progress stale sb held fs₀ f₀ n data tables full s) (hr : Regions sb)
    {blk : ℕ} {ptrs : ℕ → BitVec 16} (hlast : tables.length = full + 1)
    (hblk : tables.getD full 0 = blk) (hptrs : ∀ j < sb.blockSize / 2,
      ptrs j = BitVec.ofNat 16 (data.getD (4 + full * (sb.blockSize / 2) + j) 0)) :
    ∃ fs', blocksWrite sb.blockSize (uintOfInt (sb.datablocksStart + (blk : ℤ)))
        (pointerBytes ptrs) sb.blockSize s.fs = .ok fs' ∧
      Progress stale sb held fs₀ f₀ n data tables (full + 1) { s with fs := fs' } := by
  have hbounds := hr.blockSize_bounds
  have hbs : 0 < sb.blockSize := by omega
  have hmemt : blk ∈ tables := by
    rw [← hblk]
    exact getD_mem (by omega)
  have hlt := (h.fresh blk (List.mem_append_right _ hmemt)).1
  obtain ⟨fs', hwrite, hblock, hframe, hgrows⟩ := write_block hr hlt (pointerBytes ptrs) s.fs
    hbs (Nat.le_refl _)
  have hkept : ∀ b, b ≠ blk → ∀ t < sb.blockSize,
      blockData sb fs'.bytes b t = blockData sb s.fs.bytes b t := by
    intro b hb
    apply blockData_frame hbs
    intro a ha
    exact hframe a (by omega)
  refine ⟨fs', hwrite, ?_⟩
  refine { h with grows := ?grows, frame := ?frame, stored := ?stored, listed := ?listed }
  case grows => exact Nat.le_trans h.grows hgrows
  case frame =>
    intro a ha
    change fs'.bytes a = _
    rw [hframe a (ha blk (List.mem_append_right _ hmemt))]
    exact h.frame a ha
  case stored =>
    intro k hk t ht
    have hne : data.getD k 0 ≠ blk := by
      intro heq
      have hdisjoint := List.nodup_append.mp h.distinct
      exact hdisjoint.2.2 _ (getD_mem hk) _ hmemt heq
    change blockData sb fs'.bytes (data.getD k 0) t = _
    rw [hkept _ hne t ht]
    exact h.stored k hk t ht
  case listed =>
    intro i hi j hj
    change read16 (blockData sb fs'.bytes (tables.getD i 0)) (2 * j) = _
    by_cases hif : i < full
    · have hne : tables.getD i 0 ≠ blk := by
        intro heq
        have hnodup := (List.nodup_append.mp h.distinct).2.1
        have hindex := getD_inj hnodup (by omega) (by omega) (heq.trans hblk.symm)
        omega
      rw [read16_block_congr hj (hkept _ hne)]
      exact h.listed i hif j hj
    · have heq : i = full := by omega
      rw [heq, hblk, read16_pointerBytes hj fun t ht => by rw [hblock t ht, if_pos ht]]
      exact hptrs j hj

end Steps

end RathalOS.Allocation
