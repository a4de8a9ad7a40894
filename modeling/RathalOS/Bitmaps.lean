import RathalOS.Blocks
import RathalOS.FirstFit

/-!
Bitmaps of common/fs/bitmap.c and tools/bitmap.c. A bitmap is first-fit
allocation over packed bits: getting, setting and clearing one bit act on the
index alone, and the reservation loop returns the least clear index. An access
outside the bits array is undefined behaviour and is reported as a fault.
-/
namespace RathalOS.Bitmaps

open ByteMemory ByteFile Blocks FirstFit

structure Bitmap where
  count : ℕ
  size : ℕ
  bits : Memory

def mask (index : ℕ) : Byte := 1#8 <<< (index % 8)

/-- The index is an int, so one from 2^31 on is negative. -/
def bitmapGet (bitmap : Bitmap) (index : ℕ) : Except Fault Byte :=
  if index < 2 ^ 31 ∧ index / 8 < bitmap.size then
    .ok (bitmap.bits (index / 8) &&& mask index)
  else .error .undefined

def bitmapSet (bitmap : Bitmap) (index : ℕ) (value : Bool) : Except Fault Bitmap :=
  if index < 2 ^ 31 ∧ index / 8 < bitmap.size then
    .ok { bitmap with
      bits := Function.update bitmap.bits (index / 8)
        (if value then bitmap.bits (index / 8) ||| mask index
          else bitmap.bits (index / 8) &&& ~~~ mask index) }
  else .error .undefined

/-- The loop of bitmap_reserve_first_available_bit with n indices left. -/
def reserveLoop (bitmap : Bitmap) : ℕ → ℕ → Except Fault (ℤ × Bitmap)
  | _, 0 => .ok (-1, bitmap)
  | i, n + 1 => do
    let bit ← bitmapGet bitmap i
    if bit = 0 then do
      let bitmap ← bitmapSet bitmap i true
      .ok (i, bitmap)
    else reserveLoop bitmap (i + 1) n

def bitmapReserveFirstAvailableBit (bitmap : Bitmap) : Except Fault (ℤ × Bitmap) :=
  reserveLoop bitmap 0 bitmap.count

/-- The loop of bitmap_get_free_bits with n indices left. -/
def freeBitsLoop (bitmap : Bitmap) : ℕ → ℕ → ℕ → Except Fault ℕ
  | _, 0, count => .ok count
  | i, n + 1, count => do
    let bit ← bitmapGet bitmap i
    freeBitsLoop bitmap (i + 1) n (if bit = 0 then count + 1 else count)

def bitmapGetFreeBits (bitmap : Bitmap) : Except Fault ℕ :=
  freeBitsLoop bitmap 0 bitmap.count 0

/-- `ROUND_UP(size, block_size)` with a signed divisor: the division is signed. -/
def roundUpSigned (size : ℕ) (blockSize : ℤ) : ℤ := 1 + (intOfUint size - 1).tdiv blockSize

/-- `ROUND_UP(size, block_size)` with an unsigned divisor: the dividend, where
the cast to long applies to the first operand of size only, is converted to
unsigned before the division, so a size of 0 wraps around. -/
def roundUp (size : ℤ) (blockSize : ℕ) : ℕ := uint (1 + uintOfInt (size - 1) / blockSize)

def bitmapCreate (bitcount : ℕ) : Except Fault Bitmap :=
  if 0 < bitcount then
    let bytes := uintOfInt (roundUpSigned bitcount 8)
    .ok { count := bitcount, size := bytes, bits := fun _ => 0 }
  else .error .assertion

def blockSizes : List ℕ := [512, 1024, 2048, 4096, 8192]

def bitmapRead (startBlock bitcount blockSize : ℕ) (fs : File) :
    Except Fault (Bitmap × File) :=
  if blockSize ∈ blockSizes then do
    let bitmap ← bitmapCreate bitcount
    let (bits, fs) := (fs.fseek (uint (startBlock * blockSize))).fread bitmap.size bitmap.bits
    .ok ({ bitmap with bits := bits }, fs)
  else .error .assertion

def bitmapWrite (bitmap : Bitmap) (startBlock blockSize : ℕ) (fs : File) : Except Fault File :=
  if blockSize ∈ blockSizes then blocksWrite blockSize startBlock bitmap.bits bitmap.size fs
  else .error .assertion

/-- Bit i of the packed bits that start at some offset of a memory. -/
def bitAt (m : Memory) (offset i : ℕ) : Bool := (m (offset + i / 8)).getLsbD (i % 8)

def Bitmap.test (bitmap : Bitmap) (i : ℕ) : Bool := bitAt bitmap.bits 0 i

/-- The bits array is long enough for every index below count. -/
structure Bitmap.Sized (bitmap : Bitmap) : Prop where
  count_lt : bitmap.count < 2 ^ 31
  count_le : bitmap.count ≤ 8 * bitmap.size

theorem mask_getLsbD (index k : ℕ) (hk : k < 8) :
    (mask index).getLsbD k = decide (k = index % 8) := by
  unfold mask
  rw [BitVec.getLsbD_shiftLeft, BitVec.getLsbD_one]
  rcases Nat.lt_trichotomy k (index % 8) with h | h | h
  · simp [h, h.ne]
  · subst k
    simp [hk]
  · simp [h.ne', show k - index % 8 ≠ 0 by omega]

theorem and_mask_eq_zero_iff (b : Byte) (index : ℕ) :
    b &&& mask index = 0 ↔ b.getLsbD (index % 8) = false := by
  have hlt : index % 8 < 8 := Nat.mod_lt _ (by omega)
  constructor
  · intro h
    have hbit := congrArg (fun w : Byte => w.getLsbD (index % 8)) h
    simpa [BitVec.getLsbD_and, mask_getLsbD _ _ hlt] using hbit
  · intro h
    apply BitVec.eq_of_getLsbD_eq
    intro k hk
    rw [BitVec.getLsbD_and, mask_getLsbD _ _ hk]
    by_cases hki : k = index % 8
    · rw [hki, h]
      simp
    · simp [hki]

theorem set_getLsbD (b : Byte) (value : Bool) (index k : ℕ) (hk : k < 8) :
    (if value then b ||| mask index else b &&& ~~~ mask index).getLsbD k =
      if k = index % 8 then value else b.getLsbD k := by
  have hmask := mask_getLsbD index k hk
  cases value with
  | true =>
    rw [if_pos rfl, BitVec.getLsbD_or, hmask]
    by_cases hki : k = index % 8 <;> simp [hki]
  | false =>
    rw [if_neg Bool.false_ne_true, BitVec.getLsbD_and, BitVec.getLsbD_not, hmask]
    by_cases hki : k = index % 8
    · simp [hki]
    · simp only [hki, hk, decide_true, decide_false, Bool.not_false, Bool.and_true, if_false]

/-- Setting a bit changes the bit at that index and no other. -/
theorem bitmapSet_spec (bitmap : Bitmap) (index : ℕ) (value : Bool) (hint : index < 2 ^ 31)
    (hsize : index < 8 * bitmap.size) :
    ∃ bitmap', bitmapSet bitmap index value = .ok bitmap' ∧ bitmap'.count = bitmap.count ∧
      bitmap'.size = bitmap.size ∧ bitmap'.test = Function.update bitmap.test index value := by
  have hrange : index < 2 ^ 31 ∧ index / 8 < bitmap.size := ⟨hint, by omega⟩
  refine ⟨_, if_pos hrange, rfl, rfl, ?_⟩
  funext i
  simp only [Bitmap.test, bitAt, Nat.zero_add]
  by_cases hbyte : i / 8 = index / 8
  · rw [hbyte, Function.update_self, set_getLsbD _ _ _ _ (Nat.mod_lt _ (by omega))]
    by_cases hi : i = index
    · subst i
      rw [if_pos rfl, Function.update_self]
    · have hmod : i % 8 ≠ index % 8 := by omega
      rw [if_neg hmod, Function.update_of_ne hi, Bitmap.test, bitAt, Nat.zero_add, hbyte]
  · have hi : i ≠ index := fun h => hbyte (by rw [h])
    rw [Function.update_of_ne hbyte, Function.update_of_ne hi, Bitmap.test, bitAt, Nat.zero_add]

theorem bitmapGet_spec (bitmap : Bitmap) (index : ℕ) (hint : index < 2 ^ 31)
    (hsize : index < 8 * bitmap.size) :
    ∃ bit, bitmapGet bitmap index = .ok bit ∧ (bit = 0 ↔ bitmap.test index = false) := by
  refine ⟨_, by rw [bitmapGet, if_pos ⟨hint, by omega⟩], ?_⟩
  rw [and_mask_eq_zero_iff, Bitmap.test, bitAt, Nat.zero_add]

theorem reserveLoop_spec {bitmap : Bitmap} (hs : bitmap.Sized) {i n : ℕ}
    (hin : i + n = bitmap.count) :
    (∃ j bitmap', firstFreeFrom bitmap.test i n = some j ∧
      reserveLoop bitmap i n = .ok ((j : ℤ), bitmap') ∧ bitmap'.count = bitmap.count ∧
      bitmap'.size = bitmap.size ∧ bitmap'.test = reserve bitmap.test j) ∨
    (firstFreeFrom bitmap.test i n = none ∧ reserveLoop bitmap i n = .ok (-1, bitmap)) := by
  induction n generalizing i with
  | zero => exact Or.inr ⟨rfl, rfl⟩
  | succ n ih =>
    have hcount := hs.count_lt
    have hroom := hs.count_le
    obtain ⟨bit, hget, hbit⟩ := bitmapGet_spec bitmap i (by omega) (by omega)
    cases htest : bitmap.test i with
    | false =>
      obtain ⟨bitmap', hset, hc, hsz, ht⟩ := bitmapSet_spec bitmap i true (by omega) (by omega)
      refine Or.inl ⟨i, bitmap', by simp [firstFreeFrom, htest], ?_, hc, hsz, ht⟩
      simp only [reserveLoop, hget, ok_bind, if_pos (hbit.mpr htest), hset]
    | true =>
      have hne : bit ≠ 0 := fun h => by simp [hbit.mp h] at htest
      simp only [reserveLoop, hget, ok_bind, if_neg hne, firstFreeFrom, htest, if_true]
      exact ih (by omega)

/-- The reservation is first fit: the least clear index, or -1 if there is none. -/
theorem bitmapReserveFirstAvailableBit_spec {bitmap : Bitmap} (hs : bitmap.Sized) :
    (∃ j bitmap', firstFree bitmap.test bitmap.count = some j ∧
      bitmapReserveFirstAvailableBit bitmap = .ok ((j : ℤ), bitmap') ∧
      bitmap'.count = bitmap.count ∧ bitmap'.size = bitmap.size ∧
      bitmap'.test = reserve bitmap.test j) ∨
    (firstFree bitmap.test bitmap.count = none ∧
      bitmapReserveFirstAvailableBit bitmap = .ok (-1, bitmap)) :=
  reserveLoop_spec hs (Nat.zero_add _)

theorem freeBitsLoop_spec {bitmap : Bitmap} (hs : bitmap.Sized) {i n : ℕ} (c : ℕ)
    (hin : i + n = bitmap.count) :
    freeBitsLoop bitmap i n c = .ok (c + freeCount bitmap.test (i + n) -
      freeCount bitmap.test i) := by
  induction n generalizing i c with
  | zero => simp [freeBitsLoop]
  | succ n ih =>
    have hcount := hs.count_lt
    have hroom := hs.count_le
    obtain ⟨bit, hget, hbit⟩ := bitmapGet_spec bitmap i (by omega) (by omega)
    have hmono : freeCount bitmap.test (i + 1) ≤ freeCount bitmap.test (i + 1 + n) :=
      Nat.count_monotone _ (by omega)
    have hsucc : freeCount bitmap.test (i + 1) =
        freeCount bitmap.test i + if bitmap.test i = false then 1 else 0 := freeCount_succ i
    simp only [freeBitsLoop, hget, ok_bind]
    rw [ih _ (by omega), show i + (n + 1) = i + 1 + n by omega]
    congr 1
    by_cases hfree : bitmap.test i = false
    · rw [if_pos (hbit.mpr hfree)]
      rw [if_pos hfree] at hsucc
      omega
    · rw [if_neg (fun h => hfree (hbit.mp h))]
      rw [if_neg hfree] at hsucc
      omega

theorem bitmapGetFreeBits_spec {bitmap : Bitmap} (hs : bitmap.Sized) :
    bitmapGetFreeBits bitmap = .ok (freeCount bitmap.test bitmap.count) := by
  rw [bitmapGetFreeBits, freeBitsLoop_spec hs 0 (Nat.zero_add _)]
  simp [freeCount]

theorem roundUpSigned_eight {n : ℕ} (h0 : 0 < n) (h : n < 2 ^ 31) :
    uintOfInt (roundUpSigned n 8) = (n + 7) / 8 := by
  have hdiv : (((n - 1 : ℕ) : ℤ)).tdiv 8 = ((n - 1) / 8 : ℕ) := rfl
  unfold roundUpSigned
  rw [intOfUint_of_lt h, show (n : ℤ) - 1 = ((n - 1 : ℕ) : ℤ) by omega, hdiv]
  unfold uintOfInt
  omega

theorem roundUp_of_pos {n bs : ℕ} (h0 : 0 < n) (h : n < 2 ^ 32) :
    roundUp n bs = uint (1 + (n - 1) / bs) := by
  unfold roundUp
  rw [show (n : ℤ) - 1 = ((n - 1 : ℕ) : ℤ) by omega, uintOfInt_natCast (by omega)]

theorem mem_blockSizes_iff {n : ℕ} :
    n ∈ blockSizes ↔ n = 512 ∨ n = 1024 ∨ n = 2048 ∨ n = 4096 ∨ n = 8192 := by
  simp [blockSizes]

theorem blockSizes_bounds {n : ℕ} (h : n ∈ blockSizes) : 512 ≤ n ∧ n ≤ 8192 ∧ n % 64 = 0 := by
  rcases mem_blockSizes_iff.mp h with rfl | rfl | rfl | rfl | rfl <;> omega

/-- The bitmap that the bits at an offset of a memory make up. -/
def bitmapOf (m : Memory) (offset count : ℕ) : Bitmap where
  count := count
  size := (count + 7) / 8
  bits := fun k => if k < (count + 7) / 8 then m (offset + k) else 0

theorem bitmapOf_sized (m : Memory) (offset count : ℕ) (h : count < 2 ^ 31) :
    (bitmapOf m offset count).Sized where
  count_lt := h
  count_le := by
    change count ≤ 8 * ((count + 7) / 8)
    omega

theorem bitmapOf_test {m : Memory} {offset count i : ℕ} (h : i < count) :
    (bitmapOf m offset count).test i = bitAt m offset i := by
  simp only [Bitmap.test, bitAt, bitmapOf, Nat.zero_add]
  rw [if_pos (by omega)]

theorem bitmapRead_spec (start count : ℕ) {bs : ℕ} (fs : File) (hbs : bs ∈ blockSizes)
    (h0 : 0 < count) (hcount : count < 2 ^ 31) (hoff : bs * start < 2 ^ 31) :
    ∃ p, bitmapRead start count bs fs =
      .ok (bitmapOf fs.bytes (bs * start) count, fs.movedTo p) := by
  have hseek : fs.fseek (uint (start * bs)) = fs.movedTo (bs * start) := by
    rw [Nat.mul_comm start bs, uint_of_lt (by omega), File.fseek_of_lt fs hoff]
  refine ⟨bs * start + min ((count + 7) / 8) (fs.size - bs * start), ?_⟩
  simp only [bitmapRead, if_pos hbs, bitmapCreate, if_pos h0, ok_bind, hseek,
    roundUpSigned_eight h0 hcount]
  refine congrArg Except.ok (Prod.ext ?_ (File.fread_snd _ _ (fun _ => 0)))
  simp only [bitmapOf, Bitmap.mk.injEq, true_and]
  funext k
  exact File.fread_fst_zero _ _ _

end RathalOS.Bitmaps
