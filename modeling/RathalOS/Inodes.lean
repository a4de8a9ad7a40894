import RathalOS.Superblocks

/-!
Inodes and inode tables of common/fs/inode.c and tools/inode.c. The table is
the memory its pointer refers to, of which a number of slots exist; an access
to a slot that does not exist is a fault. Every lookup is one loop over the
slots, which also reports the slots it has read.
-/
namespace RathalOS.Inodes

open ByteMemory ByteFile Blocks Bitmaps CStrings Superblocks FirstFit

abbrev INODE_FILENAME_LENGTH : ℕ := 32
abbrev INODE_DIRECT_PTR_CNT : ℕ := 4
abbrev INODE_INDIRECT_PTR_CNT : ℕ := 9

@[ext]
structure Inode where
  number : BitVec 16
  name : Fin 32 → Byte
  size : BitVec 32
  directPtr : Fin 4 → BitVec 16
  indirectPtr : Fin 9 → BitVec 16

namespace Inode

def ofMemory (m : Memory) : Inode where
  number := read16 m 0
  name := fun i => m (2 + i)
  size := read32 m 34
  directPtr := fun i => read16 m (38 + 2 * i)
  indirectPtr := fun i => read16 m (46 + 2 * i)

def toMemory (inode : Inode) : Memory := fun k =>
  if k < 2 then byteAt inode.number.toNat k
  else if h : k < 34 then inode.name ⟨k - 2, by omega⟩
  else if k < 38 then byteAt inode.size.toNat (k - 34)
  else if h : k < 46 then byteAt (inode.directPtr ⟨(k - 38) / 2, by omega⟩).toNat ((k - 38) % 2)
  else if h : k < 64 then byteAt (inode.indirectPtr ⟨(k - 46) / 2, by omega⟩).toNat ((k - 46) % 2)
  else 0

/-- The inode whose 64 bytes are all zero. -/
def zero : Inode where
  number := 0
  name := fun _ => 0
  size := 0
  directPtr := fun _ => 0
  indirectPtr := fun _ => 0

/-- `(char *)inode->name`. -/
def namePtr (inode : Inode) : Memory := advance inode.toMemory 2

/-- The characters of the name a lookup can see. -/
def shownName (inode : Inode) : List Byte := cut 31 inode.namePtr

/-- `strncpy((char *)inode->name, filename, INODE_FILENAME_LENGTH-1)`. -/
def setName (inode : Inode) (filename : Memory) : Inode :=
  { inode with name := fun i => strncpy inode.namePtr filename (INODE_FILENAME_LENGTH - 1) i }

theorem ofMemory_congr {m m' : Memory} (h : ∀ k < inodeSize, m k = m' k) :
    ofMemory m = ofMemory m' := by
  have hsize : inodeSize = 64 := rfl
  have hword : ∀ a, a + 2 ≤ 64 → read16 m a = read16 m' a :=
    fun a ha => read16_congr (h a (by omega)) (h (a + 1) (by omega))
  apply Inode.ext
  · exact hword 0 (by omega)
  · funext i
    exact h (2 + i) (by omega)
  · exact read32_congr fun k hk => h (34 + k) (by omega)
  · funext i
    exact hword _ (by omega)
  · funext i
    exact hword _ (by omega)

theorem toMemory_name (inode : Inode) (i : Fin 32) : inode.toMemory (2 + i) = inode.name i := by
  have hi := i.isLt
  rw [toMemory, if_neg (by omega), dif_pos (by omega)]
  congr 1
  apply Fin.ext
  simp

theorem ofMemory_toMemory (inode : Inode) : ofMemory inode.toMemory = inode := by
  apply Inode.ext
  · exact read16_byteAt _ _ _ rfl rfl
  · funext i
    exact toMemory_name inode i
  · apply read32_byteAt
    intro k hk
    rw [toMemory, if_neg (by omega), dif_neg (by omega), if_pos (by omega), Nat.add_sub_cancel_left]
  · funext i
    have hi := i.isLt
    have hbyte : ∀ k < 2, inode.toMemory (38 + 2 * i + k) = byteAt (inode.directPtr i).toNat k := by
      intro k hk
      rw [toMemory, if_neg (by omega), dif_neg (by omega), if_neg (by omega), dif_pos (by omega)]
      have hindex : (⟨(38 + 2 * i + k - 38) / 2, by omega⟩ : Fin 4) = i := Fin.ext (by simp; omega)
      rw [hindex, show (38 + 2 * (i : ℕ) + k - 38) % 2 = k by omega]
    exact read16_byteAt _ _ _ (hbyte 0 (by omega)) (hbyte 1 (by omega))
  · funext i
    have hi := i.isLt
    have hbyte : ∀ k < 2,
        inode.toMemory (46 + 2 * i + k) = byteAt (inode.indirectPtr i).toNat k := by
      intro k hk
      rw [toMemory, if_neg (by omega), dif_neg (by omega), if_neg (by omega), dif_neg (by omega),
        dif_pos (by omega)]
      have hindex : (⟨(46 + 2 * i + k - 46) / 2, by omega⟩ : Fin 9) = i := Fin.ext (by simp; omega)
      rw [hindex, show (46 + 2 * (i : ℕ) + k - 46) % 2 = k by omega]
    exact read16_byteAt _ _ _ (hbyte 0 (by omega)) (hbyte 1 (by omega))

theorem ofMemory_zero : ofMemory (fun _ => 0) = zero := by
  apply Inode.ext <;> rfl

theorem namePtr_apply (inode : Inode) {k : ℕ} (hk : k < 32) :
    inode.namePtr k = inode.name ⟨k, hk⟩ := toMemory_name inode ⟨k, hk⟩

/-- What strncpy stored in the name is what a lookup will see. -/
theorem shownName_setName (inode : Inode) (filename : Memory) :
    (inode.setName filename).shownName = cut 31 filename := by
  have hname : ∀ i < 31, (inode.setName filename).namePtr i = strncpy inode.namePtr filename 31 i :=
    fun i hi => namePtr_apply _ (by omega)
  rw [shownName, cut_congr hname, cut_strncpy]

end Inode

/-- `slots` is the number of slots behind the pointer; it equals `inodeCount`
in a table the tools have allocated. -/
structure InodeTable where
  inodeCount : ℕ
  size : ℕ
  inodes : Memory
  slots : ℕ

/-- The contents of a slot. -/
def InodeTable.inode (itab : InodeTable) (i : ℕ) : Inode :=
  Inode.ofMemory (advance itab.inodes (inodeSize * i))

/-- The pointer of inode_get is only ever dereferenced, which needs the slot to exist. -/
def inodeGet (itab : InodeTable) (index : ℕ) : Except Fault Inode :=
  if index < itab.slots then .ok (itab.inode index) else .error .undefined

/-- Assignments through the pointer of inode_get. -/
def inodePut (itab : InodeTable) (index : ℕ) (inode : Inode) : InodeTable :=
  { itab with inodes := store itab.inodes (inodeSize * index) inodeSize inode.toMemory }

/-- The loop `for (i ...; i < inode_count; i++)` of every lookup, with n slots
left: the first slot that is accepted, and the slots read. -/
def findInode (itab : InodeTable) (accept : Inode → Bool) :
    ℕ → ℕ → Except Fault (Option ℕ × List ℕ)
  | _, 0 => .ok (none, [])
  | i, n + 1 => do
    let inode ← inodeGet itab i
    if accept inode then .ok (some i, [i])
    else do
      let (found, slotsRead) ← findInode itab accept (i + 1) n
      .ok (found, i :: slotsRead)

/-- An inode in use whose name matches in its first characters. -/
def matchesName (filename : Memory) (inode : Inode) : Bool :=
  decide (inode.number ≠ 0) &&
    decide (strncmp filename inode.namePtr (INODE_FILENAME_LENGTH - 1) = 0)

def inodeReserveFirstAvailable (itab : InodeTable) (inodeBitmap : Bitmap) :
    Except Fault (Option ℕ × InodeTable × Bitmap) := do
  let (i, inodeBitmap) ← bitmapReserveFirstAvailableBit inodeBitmap
  if i < 0 then .ok (none, itab, inodeBitmap)
  else do
    let inode ← inodeGet itab i.toNat
    let itab := inodePut itab i.toNat { inode with number := BitVec.ofInt 16 i }
    .ok (some i.toNat, itab, inodeBitmap)

def inodeTableCreate (inodeCount : ℕ) : Except Fault InodeTable :=
  if 0 < inodeCount then
    .ok { inodeCount := inodeCount, size := uint (inodeCount * inodeSize), inodes := fun _ => 0,
          slots := uint (inodeCount * inodeSize) / inodeSize }
  else .error .assertion

def inodeTableRead (inodeCount inodeStartBlock blockSize : ℕ) (fs : File) :
    Except Fault (InodeTable × File) :=
  if 0 < inodeCount ∧ 0 < inodeStartBlock ∧ 0 < blockSize then do
    let itab ← inodeTableCreate inodeCount
    let (inodes, fs) := (fs.fseek (uint (inodeStartBlock * blockSize))).fread
      (uint (inodeCount * inodeSize)) itab.inodes
    .ok ({ itab with inodes := inodes }, fs)
  else .error .assertion

def inodeTableWrite (itab : InodeTable) (inodeStartBlock blockSize : ℕ) (fs : File) :
    Except Fault File :=
  blocksWrite blockSize inodeStartBlock itab.inodes itab.size fs

theorem matchesName_iff (filename : Memory) (inode : Inode) :
    matchesName filename inode = true ↔
      inode.number ≠ 0 ∧ inode.shownName = cut 31 filename := by
  simp only [matchesName, Bool.and_eq_true, decide_eq_true_eq, strncmp_eq_zero_iff,
    Inode.shownName, INODE_FILENAME_LENGTH, Nat.reduceSub]
  rw [eq_comm (a := cut 31 filename)]

@[simp] theorem inodePut_inodeCount (itab : InodeTable) (i : ℕ) (inode : Inode) :
    (inodePut itab i inode).inodeCount = itab.inodeCount := rfl

@[simp] theorem inodePut_size (itab : InodeTable) (i : ℕ) (inode : Inode) :
    (inodePut itab i inode).size = itab.size := rfl

@[simp] theorem inodePut_slots (itab : InodeTable) (i : ℕ) (inode : Inode) :
    (inodePut itab i inode).slots = itab.slots := rfl

theorem inodePut_self (itab : InodeTable) (i : ℕ) (inode : Inode) :
    (inodePut itab i inode).inode i = inode := by
  rw [InodeTable.inode, ← Inode.ofMemory_toMemory inode]
  apply Inode.ofMemory_congr
  intro k hk
  simp only [inodePut, advance_apply, Inode.ofMemory_toMemory]
  rw [store_inside _ _ (by omega) (by omega), Nat.add_sub_cancel_left]

/-- A byte outside the slot keeps its value. -/
theorem inodePut_outside (itab : InodeTable) {i a : ℕ} (inode : Inode) (h : a / inodeSize ≠ i) :
    (inodePut itab i inode).inodes a = itab.inodes a := by
  have hout : ¬ (inodeSize * i ≤ a ∧ a < inodeSize * i + inodeSize) :=
    fun hin => h ((div_eq_iff_mem_block (by decide)).mpr hin)
  exact store_outside _ _ (by omega)

theorem slot_div (j : ℕ) {k : ℕ} (hk : k < inodeSize) : (inodeSize * j + k) / inodeSize = j :=
  (div_eq_iff_mem_block (by decide)).mpr (by omega)

/-- The slots the loop reads are those up to the first one accepted. -/
theorem findInode_spec (itab : InodeTable) (accept : Inode → Bool) (i n : ℕ)
    (hslots : i + n ≤ itab.slots) :
    ∃ slotsRead,
      findInode itab accept i n =
        .ok (firstFreeFrom (fun k => !accept (itab.inode k)) i n, slotsRead) ∧
      ∀ s, s ∈ slotsRead ↔
        i ≤ s ∧ s < i + n ∧ ∀ k, i ≤ k → k < s → accept (itab.inode k) = false := by
  induction n generalizing i with
  | zero =>
    refine ⟨[], rfl, fun s => ?_⟩
    simp only [List.not_mem_nil, false_iff]
    omega
  | succ n ih =>
    have hget : inodeGet itab i = .ok (itab.inode i) := if_pos (by omega)
    cases haccept : accept (itab.inode i) with
    | true =>
      refine ⟨[i], by simp [findInode, hget, haccept, firstFreeFrom], fun s => ?_⟩
      rw [List.mem_singleton]
      constructor
      · intro heq
        subst heq
        exact ⟨Nat.le_refl _, by omega, fun k hk hks => by omega⟩
      · intro hfirst
        rcases hfirst with ⟨his, hsn, hbefore⟩
        by_contra hne
        have hi := hbefore i (Nat.le_refl _) (by omega)
        rw [haccept] at hi
        exact Bool.noConfusion hi
    | false =>
      obtain ⟨slotsRead, hrest, hmem⟩ := ih (i + 1) (by omega)
      refine ⟨i :: slotsRead, by simp [findInode, hget, haccept, firstFreeFrom, hrest], fun s => ?_⟩
      rw [List.mem_cons, hmem]
      constructor
      · intro hfirst
        rcases hfirst with rfl | ⟨his, hsn, hbefore⟩
        · exact ⟨Nat.le_refl _, by omega, fun k hk hks => by omega⟩
        · refine ⟨by omega, by omega, fun k hk hks => ?_⟩
          by_cases hki : k = i
          · rw [hki]
            exact haccept
          · exact hbefore k (by omega) hks
      · intro hfirst
        rcases hfirst with ⟨his, hsn, hbefore⟩
        by_cases hsi : s = i
        · exact Or.inl hsi
        · exact Or.inr ⟨by omega, by omega, fun k hk hks => hbefore k (by omega) hks⟩

/-- A loop that returned has read every slot before which nothing was accepted. -/
theorem findInode_reads {itab : InodeTable} {accept : Inode → Bool} {i n : ℕ}
    {found : Option ℕ} {slotsRead : List ℕ} (h : findInode itab accept i n = .ok (found, slotsRead))
    {s : ℕ} (his : i ≤ s) (hsn : s < i + n)
    (hbefore : ∀ k, i ≤ k → k < s → accept (itab.inode k) = false) : s ∈ slotsRead := by
  induction n generalizing i found slotsRead with
  | zero => omega
  | succ n ih =>
    rw [findInode] at h
    obtain ⟨inode, hget, h⟩ := bind_eq_ok h
    unfold inodeGet at hget
    split at hget
    · cases hget
      split at h
      · cases h
        have hsi : s = i := by
          by_contra hne
          rename_i hslot haccept
          rw [hbefore i (Nat.le_refl _) (by omega)] at haccept
          exact Bool.noConfusion haccept
        rw [hsi]
        exact List.mem_singleton_self i
      · obtain ⟨⟨found', slotsRead'⟩, hrest, h⟩ := bind_eq_ok h
        cases h
        by_cases hsi : s = i
        · rw [hsi]
          exact List.mem_cons_self
        · exact List.mem_cons_of_mem _
            (ih hrest (by omega) (by omega) fun k hk hks => hbefore k (by omega) hks)
    · cases hget

/-- A slot that was found exists and was accepted. -/
theorem findInode_some {itab : InodeTable} {accept : Inode → Bool} {i n s : ℕ}
    {slotsRead : List ℕ} (h : findInode itab accept i n = .ok (some s, slotsRead)) :
    s < i + n ∧ s < itab.slots ∧ accept (itab.inode s) = true := by
  induction n generalizing i slotsRead with
  | zero => cases h
  | succ n ih =>
    rw [findInode] at h
    obtain ⟨inode, hget, h⟩ := bind_eq_ok h
    unfold inodeGet at hget
    split at hget
    · cases hget
      split at h
      · cases h
        exact ⟨by omega, by assumption, by assumption⟩
      · obtain ⟨⟨found', slotsRead'⟩, hrest, h⟩ := bind_eq_ok h
        cases h
        obtain ⟨hlt, hslots, haccept⟩ := ih hrest
        exact ⟨by omega, hslots, haccept⟩
    · cases hget

/-- The loop stops at the first slot accepted, whatever lies behind it. -/
theorem findInode_found (itab : InodeTable) (accept : Inode → Bool) {i n s : ℕ} (his : i ≤ s)
    (hsn : s < i + n) (hslots : s < itab.slots) (haccept : accept (itab.inode s) = true)
    (hbefore : ∀ k, i ≤ k → k < s → accept (itab.inode k) = false) :
    ∃ slotsRead, findInode itab accept i n = .ok (some s, slotsRead) ∧ ∀ k ∈ slotsRead, k ≤ s := by
  induction n generalizing i with
  | zero => omega
  | succ n ih =>
    have hget : inodeGet itab i = .ok (itab.inode i) := if_pos (by omega)
    by_cases hsi : s = i
    · refine ⟨[i], ?_, fun k hk => ?_⟩
      · rw [hsi] at haccept ⊢
        simp only [findInode, hget, ok_bind, haccept, if_true]
      · rw [List.mem_singleton] at hk
        omega
    · have hreject := hbefore i (Nat.le_refl _) (by omega)
      obtain ⟨slotsRead, hrest, hle⟩ := ih (i := i + 1) (by omega) (by omega)
        fun k hk hks => hbefore k (by omega) hks
      refine ⟨i :: slotsRead, ?_, fun k hk => ?_⟩
      · simp only [findInode, hget, ok_bind, hreject, Bool.false_eq_true, if_false, hrest]
      · rcases List.mem_cons.mp hk with hki | hk
        · omega
        · exact hle k hk

/-- A loop that accepts none of the slots there are runs off the table. -/
theorem findInode_undefined {itab : InodeTable} {accept : Inode → Bool} {i n : ℕ}
    (hi : i ≤ itab.slots) (hn : itab.slots < i + n)
    (hreject : ∀ k, i ≤ k → k < itab.slots → accept (itab.inode k) = false) :
    findInode itab accept i n = .error .undefined := by
  induction n generalizing i with
  | zero => omega
  | succ n ih =>
    by_cases hlast : i = itab.slots
    · have hget : inodeGet itab i = .error .undefined := if_neg (by omega)
      rw [findInode, hget, error_bind]
    · have hget : inodeGet itab i = .ok (itab.inode i) := if_pos (by omega)
      have hrest := ih (i := i + 1) (by omega) (by omega) fun k hk hks => hreject k (by omega) hks
      rw [findInode, hget, ok_bind, hreject i (Nat.le_refl i) (by omega),
        if_neg Bool.false_ne_true, hrest, error_bind]

/-- The reserved inode is the one of the least clear bit, and receives its number. -/
theorem inodeReserveFirstAvailable_spec (itab : InodeTable) {inodeBitmap : Bitmap}
    (hs : inodeBitmap.Sized) (hslots : inodeBitmap.count ≤ itab.slots) :
    (∃ i inodeBitmap', firstFree inodeBitmap.test inodeBitmap.count = some i ∧
      inodeReserveFirstAvailable itab inodeBitmap =
        .ok (some i, inodePut itab i { itab.inode i with number := BitVec.ofInt 16 (i : ℤ) },
          inodeBitmap') ∧
      inodeBitmap'.size = inodeBitmap.size ∧
      inodeBitmap'.test = reserve inodeBitmap.test i) ∨
    (firstFree inodeBitmap.test inodeBitmap.count = none ∧
      inodeReserveFirstAvailable itab inodeBitmap = .ok (none, itab, inodeBitmap)) := by
  obtain ⟨i, bitmap', hfirst, hok, -, hsize, htest⟩ | ⟨hnone, hok⟩ :=
    bitmapReserveFirstAvailableBit_spec hs
  · obtain ⟨hlt, -, -⟩ := firstFree_some hfirst
    have hget : inodeGet itab i = .ok (itab.inode i) := if_pos (by omega)
    refine Or.inl ⟨i, bitmap', hfirst, ?_, hsize, htest⟩
    simp only [inodeReserveFirstAvailable, hok, ok_bind]
    rw [if_neg (by omega)]
    simp only [Int.toNat_natCast, hget, ok_bind]
  · refine Or.inr ⟨hnone, ?_⟩
    simp only [inodeReserveFirstAvailable, hok, ok_bind]
    rw [if_pos (by decide)]

/-- The table that the bytes at an offset of a memory make up. -/
def tableOf (m : Memory) (offset count : ℕ) : InodeTable where
  inodeCount := count
  size := count * inodeSize
  inodes := fun k => if k < count * inodeSize then m (offset + k) else 0
  slots := count

theorem tableOf_inode {m : Memory} {offset count i : ℕ} (h : i < count) :
    (tableOf m offset count).inode i = Inode.ofMemory (advance m (offset + inodeSize * i)) := by
  apply Inode.ofMemory_congr
  intro k hk
  have hin : inodeSize * i + k < count * inodeSize := by
    calc
      inodeSize * i + k < inodeSize * i + inodeSize := by omega
      _ = inodeSize * (i + 1) := by ring
      _ ≤ inodeSize * count := Nat.mul_le_mul_left _ h
      _ = count * inodeSize := Nat.mul_comm _ _
  simp only [tableOf, advance_apply]
  rw [if_pos hin, Nat.add_assoc]

theorem inodeTableRead_spec (count start : ℕ) {bs : ℕ} (fs : File) (hcount : 0 < count)
    (hstart : 0 < start) (hbs : 0 < bs) (hfits : count * inodeSize < 2 ^ 32)
    (hoff : bs * start < 2 ^ 31) :
    ∃ p, inodeTableRead count start bs fs =
      .ok (tableOf fs.bytes (bs * start) count, fs.movedTo p) := by
  have hseek : fs.fseek (uint (start * bs)) = fs.movedTo (bs * start) := by
    rw [Nat.mul_comm start bs, uint_of_lt (by omega), File.fseek_of_lt fs hoff]
  have hslots : count * inodeSize / inodeSize = count := Nat.mul_div_cancel _ (by decide)
  refine ⟨bs * start + min (count * inodeSize) (fs.size - bs * start), ?_⟩
  simp only [inodeTableRead, hcount, hstart, hbs, and_self, if_true, inodeTableCreate, ok_bind,
    hseek, uint_of_lt hfits, hslots]
  refine congrArg Except.ok (Prod.ext ?_ (File.fread_snd _ _ (fun _ => 0)))
  simp only [tableOf, InodeTable.mk.injEq, true_and, and_true]
  funext k
  exact File.fread_fst_zero _ _ _

end RathalOS.Inodes
