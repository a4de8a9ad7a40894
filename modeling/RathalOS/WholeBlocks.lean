import RathalOS.Blocks

/-!
What blocks_write of tools/blocks.c leaves after the data. The zeros it writes are meant to
fill the last block. For more than a block that does not end on a boundary there are as
many as the last block has data, so they do so only for half a block, or where the image
was zero before.
-/
namespace RathalOS.WholeBlocks

open ByteMemory ByteFile Blocks

/-- The length of the blocks that some data needs. -/
def wholeLen (bs len : ℕ) : ℕ := (len + bs - 1) / bs * bs

/-- The data is written from a block on, zeros up to the end of its last block, and the rest
of the image, its size too, stays as it is. -/
structure WritesWholeBlocks (bs first : ℕ) (data : Memory) (len : ℕ) (fs fs' : File) : Prop where
  data : ∀ a, bs * first ≤ a → a < bs * first + len → fs'.bytes a = data (a - bs * first)
  zeros : ∀ a, bs * first + len ≤ a → a < bs * first + wholeLen bs len → fs'.bytes a = 0
  before : ∀ a < bs * first, fs'.bytes a = fs.bytes a
  after : ∀ a, bs * first + wholeLen bs len ≤ a → fs'.bytes a = fs.bytes a
  size : fs'.size = fs.size

/-- Where the zeros of blocks_write end before the last block does, or after it, the image
holds zeros already, and it is large enough for them. -/
def AlreadyZero (bs first len : ℕ) (fs : File) : Prop :=
  bs * first + len + len % bs ≤ fs.size ∧
    ∀ a, (bs * first + len + len % bs ≤ a ∧ a < bs * first + wholeLen bs len ∨
      bs * first + wholeLen bs len ≤ a ∧ a < bs * first + len + len % bs) → fs.bytes a = 0

section Lengths

variable {bs len : ℕ}

theorem wholeLen_of_dvd (hbs : 0 < bs) (h : len % bs = 0) : wholeLen bs len = len := by
  obtain ⟨q, rfl⟩ := Nat.dvd_of_mod_eq_zero h
  rw [wholeLen, Nat.add_sub_assoc hbs, Nat.mul_add_div hbs,
    Nat.div_eq_of_lt (Nat.sub_lt hbs Nat.zero_lt_one), Nat.add_zero, Nat.mul_comm]

theorem wholeLen_of_rest (hbs : 0 < bs) (h : len % bs ≠ 0) :
    wholeLen bs len + len % bs = len + bs := by
  have hdiv := Nat.div_add_mod len bs
  have hmod := Nat.mod_lt len hbs
  have hceil : (len + bs - 1) / bs = len / bs + 1 := by
    refine Nat.div_eq_of_lt_le ?_ ?_
    · rw [Nat.add_mul, one_mul, Nat.mul_comm]
      omega
    · rw [Nat.add_mul, Nat.add_mul, one_mul, Nat.mul_comm]
      omega
  rw [wholeLen, hceil, Nat.add_mul, one_mul, Nat.mul_comm]
  omega

/-- Less than a block, or whole blocks, are filled up exactly. -/
theorem wholeLen_eq_padded (hlen : 0 < len) (h : len < bs ∨ len % bs = 0) :
    wholeLen bs len = len + paddingLen bs len := by
  by_cases hlt : len < bs
  · have hmod : len % bs = len := Nat.mod_eq_of_lt hlt
    have hrest := wholeLen_of_rest (by omega) (by omega : len % bs ≠ 0)
    rw [paddingLen, if_pos hlt]
    omega
  · have hzero := h.resolve_left hlt
    have hbs : 0 < bs := by
      by_contra hnone
      have hbs : bs = 0 := by omega
      rw [hbs, Nat.mod_zero] at hzero
      omega
    rw [wholeLen_of_dvd hbs hzero, paddingLen, if_neg hlt, hzero, Nat.add_zero]

theorem paddingLen_of_rest (h : ¬ len < bs) : paddingLen bs len = len % bs := if_neg h

end Lengths

section Writes

variable {bs first len : ℕ} {data : Memory} {fs fs' : File}

/-- What a write left, when its zeros end where the last block does. -/
theorem writes_of_padded
    (hbytes : ∀ a, fs'.bytes a =
      if bs * first ≤ a ∧ a < bs * first + len then data (a - bs * first)
      else if bs * first + len ≤ a ∧ a < bs * first + len + paddingLen bs len then 0
      else fs.bytes a)
    (hsize : fs'.size = max fs.size (bs * first + len + paddingLen bs len))
    (hcovers : bs * first + wholeLen bs len ≤ fs.size)
    (h : wholeLen bs len = len + paddingLen bs len) :
    WritesWholeBlocks bs first data len fs fs' := by
  constructor
  case data =>
    intro a hlow hhigh
    rw [hbytes, if_pos ⟨hlow, hhigh⟩]
  case zeros =>
    intro a hlow hhigh
    rw [hbytes, if_neg (by omega), if_pos (by omega)]
  case before =>
    intro a ha
    rw [hbytes, if_neg (by omega), if_neg (by omega)]
  case after =>
    intro a ha
    rw [hbytes, if_neg (by omega), if_neg (by omega)]
  case size => rw [hsize]; omega

/-- The same when they end elsewhere. -/
theorem writes_iff_alreadyZero
    (hbytes : ∀ a, fs'.bytes a =
      if bs * first ≤ a ∧ a < bs * first + len then data (a - bs * first)
      else if bs * first + len ≤ a ∧ a < bs * first + len + paddingLen bs len then 0
      else fs.bytes a)
    (hsize : fs'.size = max fs.size (bs * first + len + paddingLen bs len))
    (hpadding : paddingLen bs len = len % bs)
    (hwhole : len ≤ wholeLen bs len) :
    WritesWholeBlocks bs first data len fs fs' ↔ AlreadyZero bs first len fs := by
  rw [hpadding] at hbytes hsize
  constructor
  · intro h
    have hsame := h.size
    refine ⟨by omega, fun a ha => ?_⟩
    rcases ha with ⟨hlow, hhigh⟩ | ⟨hlow, hhigh⟩
    · have hzero := h.zeros a (by omega) hhigh
      rw [hbytes, if_neg (by omega), if_neg (by omega)] at hzero
      exact hzero
    · have hkept := h.after a hlow
      rw [hbytes, if_neg (by omega), if_pos (by omega)] at hkept
      exact hkept.symm
  · intro h
    rcases h with ⟨hroom, hzero⟩
    constructor
    case data =>
      intro a hlow hhigh
      rw [hbytes, if_pos ⟨hlow, hhigh⟩]
    case zeros =>
      intro a hlow hhigh
      rw [hbytes, if_neg (by omega)]
      split
      · rfl
      · exact hzero a (.inl ⟨by omega, hhigh⟩)
    case before =>
      intro a ha
      rw [hbytes, if_neg (by omega), if_neg (by omega)]
    case after =>
      intro a ha
      rw [hbytes, if_neg (by omega)]
      split
      · exact (hzero a (.inr ⟨ha, by omega⟩)).symm
      · rfl
    case size => rw [hsize]; omega

end Writes

/-- A write leaves whole blocks exactly if it is of less than a block or of whole blocks, or
if the zeros that it leaves out, or writes too many, were there before. -/
theorem blocksWrite_whole_iff {bs first len : ℕ} (data : Memory) (fs : File) (hbs : 0 < bs)
    (hlen : 0 < len) (hend : bs * first + len < 2 ^ 31)
    (hcovers : bs * first + wholeLen bs len ≤ fs.size) :
    (∃ fs', blocksWrite bs first data len fs = .ok fs' ∧
      WritesWholeBlocks bs first data len fs fs') ↔
        len < bs ∨ len % bs = 0 ∨ AlreadyZero bs first len fs := by
  obtain ⟨fs', hok, hbytes, hsize⟩ :=
    blocksWrite_spec data fs hbs hlen (by omega : bs * first < 2 ^ 31)
  have hruns : (∃ fs', blocksWrite bs first data len fs = .ok fs' ∧
      WritesWholeBlocks bs first data len fs fs') ↔
        WritesWholeBlocks bs first data len fs fs' := by
    rw [hok]
    constructor
    · rintro ⟨fs'', heq, h⟩
      cases heq
      exact h
    · intro h
      exact ⟨fs', rfl, h⟩
  rw [hruns]
  by_cases hexact : len < bs ∨ len % bs = 0
  · refine iff_of_true ?_ ?_
    · exact writes_of_padded hbytes hsize hcovers (wholeLen_eq_padded hlen hexact)
    · rcases hexact with h | h
      · exact .inl h
      · exact .inr (.inl h)
  · obtain ⟨hlong, hrest⟩ := not_or.mp hexact
    have hwhole := wholeLen_of_rest hbs hrest
    have hmod := Nat.mod_lt len hbs
    rw [writes_iff_alreadyZero hbytes hsize (paddingLen_of_rest hlong) (by omega)]
    constructor
    · intro h
      exact .inr (.inr h)
    · intro h
      exact (h.resolve_left hlong).resolve_left hrest

/-- An image without a zero. -/
def filledImage : File := File.ofList (List.replicate 2048 0xFF)

theorem filledImage_bytes {a : ℕ} (ha : a < 2048) : filledImage.bytes a = 0xFF := by
  change (List.replicate 2048 (0xFF : Byte)).getD a 0 = 0xFF
  rw [List.getD_eq_getElem?_getD, List.getElem?_replicate_of_lt ha]
  rfl

theorem filledImage_size : filledImage.size = 2048 := by
  rw [filledImage, File.ofList_size, List.length_replicate]

/-- Two whole blocks. -/
theorem blocksWrite_whole_two : ∃ fs', blocksWrite 512 1 (fun _ => 1) 1024 filledImage = .ok fs' ∧
    WritesWholeBlocks 512 1 (fun _ => 1) 1024 filledImage fs' := by
  have hcovers : 512 * 1 + wholeLen 512 1024 ≤ filledImage.size := by
    rw [filledImage_size]
    decide
  exact (blocksWrite_whole_iff (fun _ => 1) filledImage (by decide) (by decide) (by decide)
    hcovers).mpr (.inr (.inl (by decide)))

/-- A block and 88 bytes. -/
theorem blocksWrite_whole_rest : ¬ ∃ fs',
    blocksWrite 512 1 (fun _ => 1) 600 filledImage = .ok fs' ∧
      WritesWholeBlocks 512 1 (fun _ => 1) 600 filledImage fs' := by
  rintro ⟨fs', hok, h⟩
  obtain ⟨fs'', hok', hbytes, -⟩ := blocksWrite_spec (fun _ => 1) filledImage
    (by decide : 0 < 512) (by decide : 0 < 600) (by decide : 512 * 1 < 2 ^ 31)
  rw [hok] at hok'
  cases hok'
  have hzero := h.zeros 1300 (by decide) (by decide)
  rw [hbytes, if_neg (by decide), if_neg (by decide), filledImage_bytes (by decide)] at hzero
  exact absurd hzero (by decide)

end RathalOS.WholeBlocks
