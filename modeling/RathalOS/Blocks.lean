import RathalOS.ByteFile

/-!
Block input and output of tools/blocks.c. A write of whole blocks, or of less
than one, leaves the last block padded with zeros. A longer write that does not
end on a block boundary is followed by as many zeros as its last block has
data, which may be too few or may run into the next block.
-/
namespace RathalOS.Blocks

open ByteMemory ByteFile

def paddingLen (blockSize dataLen : ℕ) : ℕ :=
  if dataLen < blockSize then blockSize - dataLen else dataLen % blockSize

def blocksWrite (blockSize firstBlock : ℕ) (data : Memory) (dataLen : ℕ) (fs : File) :
    Except Fault File :=
  if 0 < blockSize ∧ 0 < dataLen then
    let offset := uint (blockSize * firstBlock)
    let fs := (fs.fseek offset).fwrite data dataLen
    let padding := paddingLen blockSize dataLen
    .ok (if padding ≠ 0 then fs.fwrite (fun _ => 0) padding else fs)
  else .error .assertion

def blockRead (blockSize block : ℕ) (dest : Memory) (fs : File) :
    Except Fault (Memory × File) :=
  if 0 < blockSize ∧ 0 < block then
    let offset := uint (blockSize * block)
    .ok ((fs.fseek offset).fread blockSize dest)
  else .error .assertion

/-- The effect of a write below 2^31: the data, then the padding, and nothing else. -/
theorem blocksWrite_spec {bs first len : ℕ} (data : Memory) (fs : File)
    (hbs : 0 < bs) (hlen : 0 < len) (hoff : bs * first < 2 ^ 31) :
    ∃ fs', blocksWrite bs first data len fs = .ok fs' ∧
      (∀ a, fs'.bytes a =
        if bs * first ≤ a ∧ a < bs * first + len then data (a - bs * first)
        else if bs * first + len ≤ a ∧ a < bs * first + len + paddingLen bs len then 0
        else fs.bytes a) ∧
      fs'.size = max fs.size (bs * first + len + paddingLen bs len) := by
  have hseek : fs.fseek (uint (bs * first)) = fs.movedTo (bs * first) := by
    rw [uint_of_lt (by omega), File.fseek_of_lt fs hoff]
  refine ⟨_, by rw [blocksWrite, if_pos ⟨hbs, hlen⟩], ?_, ?_⟩
  · intro a
    rw [hseek]
    by_cases hpad : paddingLen bs len = 0
    · rw [if_neg (by simpa using hpad), hpad]
      by_cases hin : bs * first ≤ a ∧ a < bs * first + len
      · rw [if_pos hin]
        exact store_inside _ _ hin.1 hin.2
      · rw [if_neg hin, if_neg (by omega)]
        exact store_outside _ _ (by simp only [File.movedTo_pos]; omega)
    · rw [if_pos hpad]
      simp only [File.fwrite_bytes, File.fwrite_pos, File.movedTo_pos, File.movedTo_bytes]
      by_cases hin : bs * first ≤ a ∧ a < bs * first + len
      · rw [if_pos hin, store_outside _ _ (by omega), store_inside _ _ hin.1 hin.2]
      · rw [if_neg hin]
        by_cases hzero : bs * first + len ≤ a ∧ a < bs * first + len + paddingLen bs len
        · rw [if_pos hzero, store_inside _ _ hzero.1 hzero.2]
        · rw [if_neg hzero, store_outside _ _ (by omega), store_outside _ _ (by omega)]
  · rw [hseek]
    by_cases hpad : paddingLen bs len = 0
    · rw [if_neg (by simpa using hpad), hpad]
      simp
    · rw [if_pos hpad]
      simp only [File.fwrite_size, File.fwrite_pos, File.movedTo_pos, File.movedTo_size]
      omega

theorem div_eq_iff_mem_block {bs a b : ℕ} (hbs : 0 < bs) :
    a / bs = b ↔ bs * b ≤ a ∧ a < bs * b + bs := by
  rw [Nat.div_eq_iff hbs, Nat.mul_comm bs b]
  omega

/-- A write of at most one block fills exactly that block. -/
theorem blocksWrite_block (first : ℕ) {bs len : ℕ} (data : Memory) (fs : File)
    (hlen : 0 < len) (hle : len ≤ bs) (hoff : bs * first < 2 ^ 31) :
    ∃ fs', blocksWrite bs first data len fs = .ok fs' ∧
      (∀ a, fs'.bytes a =
        if a / bs = first then (if a % bs < len then data (a % bs) else 0) else fs.bytes a) ∧
      fs'.size = max fs.size (bs * first + bs) := by
  obtain ⟨fs', hok, hbytes, hsize⟩ := blocksWrite_spec data fs (by omega) hlen hoff
  have hend : len + paddingLen bs len = bs := by
    unfold paddingLen
    by_cases hlt : len < bs
    · rw [if_pos hlt]
      omega
    · have heq : len = bs := by omega
      rw [if_neg hlt, heq, Nat.mod_self]
      omega
  refine ⟨fs', hok, ?_, by rw [hsize]; omega⟩
  intro a
  rw [hbytes]
  by_cases hblock : a / bs = first
  · have hrange := (div_eq_iff_mem_block (by omega)).mp hblock
    have hmod : a - bs * first = a % bs := by
      have hdiv := Nat.div_add_mod a bs
      rw [hblock] at hdiv
      omega
    rw [if_pos hblock]
    by_cases hdata : a % bs < len
    · rw [if_pos hdata, if_pos (by omega), hmod]
    · rw [if_neg hdata, if_neg (by omega), if_pos (by omega)]
  · have hout : ¬ (bs * first ≤ a ∧ a < bs * first + bs) :=
      fun h => hblock ((div_eq_iff_mem_block (by omega)).mpr h)
    rw [if_neg hblock, if_neg (by omega), if_neg (by omega)]

/-- A block that lies inside the file is read whole. -/
theorem blockRead_spec {bs block : ℕ} (dest : Memory) (fs : File)
    (hbs : 0 < bs) (hblock : 0 < block) (hoff : bs * block < 2 ^ 31)
    (hend : bs * block + bs ≤ fs.size) :
    ∃ p, blockRead bs block dest fs =
      .ok (fun i => if i < bs then fs.bytes (bs * block + i) else dest i, fs.movedTo p) := by
  have hseek : fs.fseek (uint (bs * block)) = fs.movedTo (bs * block) := by
    rw [uint_of_lt (by omega), File.fseek_of_lt fs hoff]
  refine ⟨bs * block + min bs (fs.size - bs * block), ?_⟩
  simp only [blockRead, hbs, hblock, and_self, if_true, hseek]
  congr 1
  refine Prod.ext ?_ (File.fread_snd _ _ _)
  funext i
  exact File.fread_fst_of_le _ _ (by simpa using hend) i

end RathalOS.Blocks
