import RathalOS.Admission
import RathalOS.CreateImage

/-!
Block numbers in 16 bits. fs_create accepts more than 65536 data blocks, but a
pointer keeps only the low 16 bits of the index that was reserved for it. First fit
takes the lowest free blocks, so it is known before the call whether the pointers of
a new file will be right. What the slot of the new file held before counts as well,
since add_file overwrites only the pointers it stores.
-/
namespace RathalOS.StoredPointers

open ByteMemory ByteFile Blocks Bitmaps CStrings Superblocks Inodes FileAccess FirstFit
open Images EmptyImages WriteBack AddFile Reservations Allocation CopyLoops AddOutcomes Placement
open AddedFiles Admission BlockAddresses CreateImage

/-- The block that was reserved for a table. -/
def tableBlock (log : Log) (i : ℕ) : ℕ :=
  ((log.find? fun r => decide (r.place = .indirect i)).map fun r => r.index.toNat).getD 0

/-- The pointer stored at a place, those of a table in the block reserved for it. -/
def storedPointer (sb : Superblock) (m : Memory) (inode : Inode) (log : Log) : Place → ℕ
  | .direct i => directAt inode i
  | .indirect i => indirectAt inode i
  | .entry i j => (read16 (blockData sb m (tableBlock log i)) (2 * j)).toNat

/-- The pointers stored for the reservations of the file in slot i are the indices
returned; none is 0, and no other pointer of a live file has the same value. -/
structure Faithful (sb : Superblock) (m : Memory) (i : ℕ) (log : Log) : Prop where
  exact : ∀ r ∈ log, (storedPointer sb m (inodeAt sb m i) log r.place : ℤ) = r.index
  nonzero : ∀ r ∈ log, storedPointer sb m (inodeAt sb m i) log r.place ≠ 0
  distinct : ∀ r ∈ log, ∀ j q, Live sb m j → (j, q) ≠ (i, r.place) →
    pointer sb m (inodeAt sb m j) q ≠ storedPointer sb m (inodeAt sb m i) log r.place

/-- What an inode names besides its first pointers. -/
def leftover (inode : Inode) (data tables : ℕ) : Inode :=
  { inode with
    directPtr := fun k => if k.val < data then 0 else inode.directPtr k
    indirectPtr := fun k => if k.val < tables then 0 else inode.indirectPtr k }

/-- The lowest free blocks of an image, as many as a file of n bytes takes, have numbers
from 1 to 65535 that no other file uses, nor what add_file leaves of the inode in slot i. -/
def Numbered (sb : Superblock) (m : Memory) (i n : ℕ) : Prop :=
  ∀ b < sb.datablockCount, dataBit sb m b = false →
    freeCount (dataBit sb m) b < demand sb n →
    b ≠ 0 ∧ b < 65536 ∧
      (∀ j p, Live sb m j → j ≠ i → pointer sb m (inodeAt sb m j) p ≠ b) ∧
      (i ≠ 0 → ∀ p, pointer sb m (leftover (inodeAt sb m i) (blocksFor sb n)
        (tablesFor sb (blocksFor sb n))) p ≠ b)

/-- Block 0 and the blocks that files use are marked. -/
structure Marked (sb : Superblock) (m : Memory) : Prop where
  reserved : dataBit sb m 0 = true
  used : ∀ j p, Live sb m j → pointer sb m (inodeAt sb m j) p ≠ 0 →
    pointer sb m (inodeAt sb m j) p < sb.datablockCount →
    dataBit sb m (pointer sb m (inodeAt sb m j) p) = true

theorem marked_of_consistent {sb : Superblock} {fs : File} (hc : Consistent sb fs) :
    Marked sb fs.bytes where
  reserved := dataBit_zero hc
  used _ _ hlive _ _ := hc.blocks.held_of_named hlive

theorem leftover_zero (data tables : ℕ) : leftover Inode.zero data tables = Inode.zero := by
  have hdirect : (fun k : Fin 4 => if k.val < data then 0 else Inode.zero.directPtr k) =
      Inode.zero.directPtr := funext fun _ => ite_self _
  have hindirect : (fun k : Fin 9 => if k.val < tables then 0 else Inode.zero.indirectPtr k) =
      Inode.zero.indirectPtr := funext fun _ => ite_self _
  rw [leftover, hdirect, hindirect]

theorem pointer_zero (sb : Superblock) (m : Memory) (p : Place) :
    pointer sb m Inode.zero p = 0 := by
  have hindirect : ∀ i, indirectAt Inode.zero i = 0 := fun i => dite_eq_right_iff.mpr fun _ => rfl
  cases p with
  | direct i => exact dite_eq_right_iff.mpr fun _ => rfl
  | indirect i => exact hindirect i
  | entry i j => exact entryAt_of_zero (hindirect i) j

/-- In such an image enough of the blocks below 65536 must be free. -/
theorem numbered_iff {sb : Superblock} {m : Memory} {i n : ℕ} (h : Marked sb m)
    (hempty : inodeAt sb m i = Inode.zero) (hn : demand sb n ≤ freeBlocks sb m) :
    Numbered sb m i n ↔ demand sb n ≤ freeCount (dataBit sb m) 65536 := by
  constructor
  · intro hnumbered
    by_contra hlt
    obtain ⟨b, hb, hfree, hrank⟩ := exists_rank
      (show freeCount (dataBit sb m) 65536 < freeCount (dataBit sb m) sb.datablockCount by
        rw [freeBlocks] at hn
        omega)
    obtain ⟨-, hsmall, -⟩ := hnumbered b hb hfree (by omega)
    have hless := (lt_iff_freeCount_lt hfree).mp hsmall
    omega
  · intro hroom b hb hfree hrank
    have hsmall := (lt_iff_freeCount_lt (n := 65536) hfree).mpr (by omega)
    have hne : b ≠ 0 := by
      rintro rfl
      rw [h.reserved] at hfree
      exact Bool.noConfusion hfree
    refine ⟨hne, hsmall, fun j p hlive _ heq => ?_, fun _ p => ?_⟩
    · have hheld := h.used j p hlive (by omega) (by omega)
      rw [heq, hfree] at hheld
      exact Bool.noConfusion hheld
    · rw [hempty, leftover_zero, pointer_zero]
      exact hne.symm

/-- The places whose pointers are stored for so many data and indirect blocks. -/
def Covered (data tables : ℕ) : Place → Prop
  | .direct k => k < data
  | .indirect k => k < tables
  | .entry k _ => k < tables

section Filled

variable {sb : Superblock} {m : Memory} {old : Inode} {filename : Memory} {i n : ℕ}
variable {data tables : List ℕ}

theorem directAt_filled (k : ℕ) : directAt (filledInode old filename i n data tables) k =
    if k < data.length then directAt (newInode filename i n (narrowed data) (narrowed tables)) k
    else directAt (leftover old data.length tables.length) k := by
  by_cases h4 : k < 4
  · simp only [directAt, dif_pos h4, filledInode, newInode, leftover, overwritten, narrowed]
    split <;> rfl
  · simp only [directAt, dif_neg h4, ite_self]

theorem indirectAt_filled (k : ℕ) : indirectAt (filledInode old filename i n data tables) k =
    if k < tables.length then
      indirectAt (newInode filename i n (narrowed data) (narrowed tables)) k
    else indirectAt (leftover old data.length tables.length) k := by
  by_cases h9 : k < 9
  · simp only [indirectAt, dif_pos h9, filledInode, newInode, leftover, overwritten, narrowed]
    split <;> rfl
  · simp only [indirectAt, dif_neg h9, ite_self]

/-- The pointers at the places covered are stored. -/
theorem pointer_filled_of_covered {p : Place} (h : Covered data.length tables.length p) :
    pointer sb m (filledInode old filename i n data tables) p =
      pointer sb m (newInode filename i n (narrowed data) (narrowed tables)) p := by
  cases p with
  | direct k => exact (directAt_filled k).trans (if_pos h)
  | indirect k => exact (indirectAt_filled k).trans (if_pos h)
  | entry k j => exact entryAt_congr ((indirectAt_filled k).trans (if_pos h)) j

/-- The other pointers are left. -/
theorem pointer_filled_of_not {p : Place} (h : ¬ Covered data.length tables.length p) :
    pointer sb m (filledInode old filename i n data tables) p =
      pointer sb m (leftover old data.length tables.length) p := by
  cases p with
  | direct k => exact (directAt_filled k).trans (if_neg h)
  | indirect k => exact (indirectAt_filled k).trans (if_neg h)
  | entry k j => exact entryAt_congr ((indirectAt_filled k).trans (if_neg h)) j

/-- Nothing is left at a place that is covered. -/
theorem pointer_leftover_of_covered {p : Place} {d t : ℕ} (h : Covered d t p) :
    pointer sb m (leftover old d t) p = 0 := by
  have hindirect : ∀ k < t, indirectAt (leftover old d t) k = 0 := by
    intro k hk
    refine dite_eq_right_iff.mpr fun _ => ?_
    simp only [leftover, if_pos hk]
    rfl
  cases p with
  | direct k =>
    refine dite_eq_right_iff.mpr fun _ => ?_
    simp only [leftover, if_pos (show k < d from h)]
    rfl
  | indirect k => exact hindirect k h
  | entry k j => exact entryAt_of_zero (hindirect k h) j

end Filled

section NewFile

variable {stale : Memory} {sb : Superblock} {fs f fs' : File} {filename : Memory} {n i : ℕ}
variable {data tables : List ℕ} {log : Log} {s : CopyState} {ib : Bitmap} {itab : InodeTable}
variable {old : Inode}

theorem tableBlock_eq {held : ℕ → Bool} (h : Logged sb held log data tables) {k : ℕ}
    (hk : k < tables.length) : tableBlock log k = tables.getD k 0 := by
  unfold tableBlock
  cases hfind : log.find? fun r => decide (r.place = .indirect k) with
  | none =>
    have hmem := (h.mem_iff ⟨.indirect k, tables.getD k 0⟩).mpr (Or.inr ⟨k, hk, rfl⟩)
    have hnone := List.find?_eq_none.mp hfind _ hmem
    simp at hnone
  | some r =>
    have hplace : r.place = .indirect k := by simpa using List.find?_some hfind
    rcases (h.mem_iff r).mp (List.mem_of_find?_eq_some hfind) with ⟨l, hl, rfl⟩ | ⟨l, hl, rfl⟩
    · simp only [filePlace] at hplace
      split at hplace <;> cases hplace
    · cases hplace
      rfl

theorem exists_reservation {held : ℕ → Bool} (h : Logged sb held log data tables) {b : ℕ}
    (hb : b ∈ data ++ tables) : ∃ r ∈ log, r.index = (b : ℤ) := by
  rcases List.mem_append.mp hb with hb | hb
  · obtain ⟨k, hk, rfl⟩ := List.getElem_of_mem hb
    refine ⟨_, (h.mem_iff _).mpr (Or.inl ⟨k, hk, rfl⟩), ?_⟩
    rw [List.getD_eq_getElem _ 0 hk]
  · obtain ⟨k, hk, rfl⟩ := List.getElem_of_mem hb
    refine ⟨_, (h.mem_iff _).mpr (Or.inr ⟨k, hk, rfl⟩), ?_⟩
    rw [List.getD_eq_getElem _ 0 hk]

/-- A data block after the fourth is listed in a table. -/
theorem table_lt (hbs : 512 ≤ sb.blockSize)
    (hcopied : Copied stale sb fs f n data tables log s) {k : ℕ} (hk : k < data.length)
    (h4 : ¬ k < 4) : (k - 4) / (sb.blockSize / 2) < tables.length := by
  have hroom := hcopied.room
  rw [Nat.div_lt_iff_lt_mul (by omega)]
  omega

/-- Every place a block was reserved for receives its pointer. -/
theorem covered_of_mem (hbs : 512 ≤ sb.blockSize)
    (hcopied : Copied stale sb fs f n data tables log s) {r : Reservation} (hr : r ∈ log) :
    Covered data.length tables.length r.place := by
  rcases (hcopied.logged.mem_iff r).mp hr with ⟨k, hk, rfl⟩ | ⟨k, hk, rfl⟩
  · by_cases h4 : k < 4
    · simp only [filePlace, if_pos h4]
      exact hk
    · simp only [filePlace, if_neg h4]
      exact table_lt hbs hcopied hk h4
  · exact hk

theorem storedPointer_table (hcopied : Copied stale sb fs f n data tables log s)
    (hstored : InodeStored sb fs (filledInode old filename i n data tables) i s ib itab fs')
    (hi : i < sb.inodeCount) {k : ℕ} (hk : k < tables.length) :
    storedPointer sb fs'.bytes (inodeAt sb fs'.bytes i) log (.indirect k) =
      tables.getD k 0 % 65536 := by
  have h9 : k < 9 := Nat.lt_of_lt_of_le hk hcopied.tables_le
  rw [storedPointer, hstored.inodeAt_self hi, indirectAt_filled, if_pos hk]
  simp only [indirectAt, dif_pos h9]
  exact BitVec.toNat_ofNat _ _

/-- What is stored for a reservation is the index modulo 65536. -/
theorem storedPointer_eq (hbs : 512 ≤ sb.blockSize)
    (hcopied : Copied stale sb fs f n data tables log s)
    (hstored : InodeStored sb fs (filledInode old filename i n data tables) i s ib itab fs')
    (hi : i < sb.inodeCount) (h0 : ∀ k < tables.length, tables.getD k 0 ≠ 0) {r : Reservation}
    (hr : r ∈ log) :
    ∃ b ∈ data ++ tables, r.index = (b : ℤ) ∧
      storedPointer sb fs'.bytes (inodeAt sb fs'.bytes i) log r.place = b % 65536 := by
  rcases (hcopied.logged.mem_iff r).mp hr with ⟨k, hk, rfl⟩ | ⟨k, hk, rfl⟩
  · refine ⟨_, List.mem_append_left _ (getD_mem hk), rfl, ?_⟩
    by_cases h4 : k < 4
    · simp only [filePlace, if_pos h4, storedPointer]
      rw [hstored.inodeAt_self hi, directAt_filled, if_pos hk]
      simp only [directAt, dif_pos h4]
      exact BitVec.toNat_ofNat _ _
    · have htable := table_lt hbs hcopied hk h4
      have hmod : (k - 4) % (sb.blockSize / 2) < sb.blockSize / 2 := Nat.mod_lt _ (by omega)
      have hdiv := Nat.div_add_mod' (k - 4) (sb.blockSize / 2)
      simp only [filePlace, if_neg h4, storedPointer]
      rw [tableBlock_eq hcopied.logged htable,
        listed_narrowed hcopied hstored htable (h0 _ htable) hmod, Nat.add_assoc, hdiv,
        Nat.add_sub_cancel' (by omega)]
      exact BitVec.toNat_ofNat _ _
  · exact ⟨_, List.mem_append_right _ (getD_mem hk), rfl,
      storedPointer_table hcopied hstored hi hk⟩

/-- When the pointers are the blocks taken, each place names the block reserved for it. -/
theorem pointer_reserved {held : ℕ → Bool} {m : Memory} {inode : Inode}
    (h : Logged sb held log data tables) (hp : Placed sb m inode data tables)
    (hbs : 512 ≤ sb.blockSize) {r : Reservation} (hr : r ∈ log) :
    (pointer sb m inode r.place : ℤ) = r.index := by
  rcases (h.mem_iff r).mp hr with ⟨k, hk, rfl⟩ | ⟨k, hk, rfl⟩
  · rw [← fileBlock_eq_pointer, hp.fileBlock hbs hk]
  · rw [pointer, hp.indirectAt]

theorem kept_inode {inode : Inode} (hstored : InodeStored sb fs inode i s ib itab fs') {j : ℕ}
    (hj : j < sb.inodeCount) (hji : j ≠ i) : inodeAt sb fs'.bytes j = inodeAt sb fs.bytes j :=
  inodeAt_congr fun _ hk => hstored.slot hj hji hk

/-- The other files are the same. -/
theorem kept_live {inode : Inode} (hstored : InodeStored sb fs inode i s ib itab fs') {j : ℕ}
    (hji : j ≠ i) : Live sb fs'.bytes j ↔ Live sb fs.bytes j := by
  refine and_congr_right fun hj => ?_
  rw [kept_inode hstored hj hji]

/-- An inode of which no table was taken keeps its pointers. -/
theorem kept_pointer (hbs : 0 < sb.blockSize)
    (hcopied : Copied stale sb fs f n data tables log s) {inode x : Inode}
    (hstored : InodeStored sb fs inode i s ib itab fs')
    (htables : ∀ k, indirectAt x k ≠ 0 → indirectAt x k ∉ data ++ tables) :
    pointer sb fs'.bytes x = pointer sb fs.bytes x := by
  apply pointer_congr
  intro k hk
  exact kept_block hbs hcopied hstored hk (htables k hk)

/-- An inode names none of the blocks taken after the call, if and only if it names none
before. -/
theorem unnamed_iff (hbs : 0 < sb.blockSize)
    (hcopied : Copied stale sb fs f n data tables log s) {inode : Inode} (x : Inode)
    (hstored : InodeStored sb fs inode i s ib itab fs') :
    (∀ b ∈ data ++ tables, ∀ p, pointer sb fs'.bytes x p ≠ b) ↔
      ∀ b ∈ data ++ tables, ∀ p, pointer sb fs.bytes x p ≠ b := by
  constructor
  · intro h
    rwa [kept_pointer hbs hcopied hstored fun k _ hk => h _ hk (.indirect k) rfl] at h
  · intro h
    rwa [kept_pointer hbs hcopied hstored fun k _ hk => h _ hk (.indirect k) rfl]

/-- The blocks taken are the lowest free ones, as many as the file needs. -/
theorem mem_taken_iff (hbs : 512 ≤ sb.blockSize)
    (hcopied : Copied stale sb fs f n data tables log s) (hdone : ¬ 0 < s.dataLeft) (b : ℕ) :
    b ∈ data ++ tables ↔ b < sb.datablockCount ∧ dataBit sb fs.bytes b = false ∧
      freeCount (dataBit sb fs.bytes) b < demand sb (intOfUint n).toNat := by
  have htaken := hcopied.progress.taken
  have hlow := hcopied.logged.lowest
  have hdemand : (data ++ tables).length = demand sb (intOfUint n).toNat := by
    obtain ⟨hdata, htables⟩ := copied_complete hcopied hbs hdone
    rw [List.length_append, hdata, htables, demand]
  rw [← hdemand]
  constructor
  · intro hb
    obtain ⟨hlt, hfree⟩ := htaken.fresh b hb
    exact ⟨hlt, hfree, htaken.rank_lt hlow hb⟩
  · intro hb
    obtain ⟨hlt, hfree, hrank⟩ := hb
    exact htaken.mem_of_rank_lt hlow hlt hfree hrank

/-- Other files and what is left in the slot name none of the blocks taken, if the pointers
to them are right. -/
theorem Faithful.unnamed (h : Faithful sb fs'.bytes i log)
    (hcopied : Copied stale sb fs f n data tables log s) {b j : ℕ} {q : Place}
    (hb : b ∈ data ++ tables) (hlive : Live sb fs'.bytes j)
    (hne : ∀ r ∈ log, (j, q) ≠ (i, r.place)) :
    pointer sb fs'.bytes (inodeAt sb fs'.bytes j) q ≠ b := by
  obtain ⟨r, hr, hindex⟩ := exists_reservation hcopied.logged hb
  have hexact := h.exact r hr
  have hdistinct := h.distinct r hr j q hlive (hne r hr)
  omega

/-- The numbers of the blocks taken fit if the pointers to them are right. -/
theorem Faithful.fits (h : Faithful sb fs'.bytes i log) (hbs : 512 ≤ sb.blockSize)
    (hcopied : Copied stale sb fs f n data tables log s)
    (hstored : InodeStored sb fs (filledInode old filename i n data tables) i s ib itab fs')
    (hi : i < sb.inodeCount) {b : ℕ} (hb : b ∈ data ++ tables) : b ≠ 0 ∧ b < 65536 := by
  have h0 : ∀ k < tables.length, tables.getD k 0 ≠ 0 := by
    intro k hk hzero
    refine h.nonzero _ ((hcopied.logged.mem_iff _).mpr (Or.inr ⟨k, hk, rfl⟩)) ?_
    rw [storedPointer_table hcopied hstored hi hk, hzero]
  obtain ⟨r, hr, hindex⟩ := exists_reservation hcopied.logged hb
  obtain ⟨c, -, hc, hstore⟩ := storedPointer_eq hbs hcopied hstored hi h0 hr
  have hexact := h.exact r hr
  have hnonzero := h.nonzero r hr
  omega

/-- Slot 0 is not live even when it is filled. -/
theorem live_self_iff (hcount : sb.inodeCount ≤ 65535)
    (hstored : InodeStored sb fs (filledInode old filename i n data tables) i s ib itab fs')
    (hi : i < sb.inodeCount) : Live sb fs'.bytes i ↔ i ≠ 0 := by
  have hnumber : (filledInode old filename i n data tables).number.toNat = i := by
    change (BitVec.ofInt 16 (i : ℤ)).toNat = i
    rw [BitVec.ofInt_natCast, BitVec.toNat_ofNat]
    omega
  rw [Live, hstored.inodeAt_self hi, ne_eq, ← BitVec.toNat_inj, hnumber]
  exact and_iff_right hi

/-- The pointers are right if the numbers of the blocks taken fit and nothing else names
them. -/
theorem faithful_of_fits (hbs : 512 ≤ sb.blockSize) (hcount : sb.inodeCount ≤ 65535)
    (hcopied : Copied stale sb fs f n data tables log s)
    (hstored : InodeStored sb fs (filledInode old filename i n data tables) i s ib itab fs')
    (hi : i < sb.inodeCount) (hfits : ∀ b ∈ data ++ tables, b ≠ 0 ∧ b < 65536)
    (hothers : ∀ j, Live sb fs.bytes j → j ≠ i → ∀ b ∈ data ++ tables, ∀ p,
      pointer sb fs.bytes (inodeAt sb fs.bytes j) p ≠ b)
    (hleft : i ≠ 0 → ∀ b ∈ data ++ tables, ∀ p,
      pointer sb fs.bytes (leftover old data.length tables.length) p ≠ b) :
    Faithful sb fs'.bytes i log := by
  have hplaced := placed_of_copied filename hcopied hstored hfits
  have hexact : ∀ r ∈ log, ∃ b ∈ data ++ tables, r.index = (b : ℤ) ∧
      storedPointer sb fs'.bytes (inodeAt sb fs'.bytes i) log r.place = b := by
    intro r hr
    obtain ⟨b, hb, hindex, hstore⟩ := storedPointer_eq hbs hcopied hstored hi
      (fun k hk => (hfits _ (List.mem_append_right _ (getD_mem hk))).1) hr
    rw [Nat.mod_eq_of_lt (hfits b hb).2] at hstore
    exact ⟨b, hb, hindex, hstore⟩
  constructor
  case exact =>
    intro r hr
    obtain ⟨b, -, hindex, hstore⟩ := hexact r hr
    rw [hindex, hstore]
  case nonzero =>
    intro r hr
    obtain ⟨b, hb, -, hstore⟩ := hexact r hr
    rw [hstore]
    exact (hfits b hb).1
  case distinct =>
    intro r hr j q hlive hne
    obtain ⟨b, hb, hindex, hstore⟩ := hexact r hr
    rw [hstore]
    by_cases hji : j = i
    · subst hji
      rw [hstored.inodeAt_self hi]
      by_cases hq : Covered data.length tables.length q
      · -- the places covered name different blocks
        rw [pointer_filled_of_covered hq]
        have hself := pointer_reserved hcopied.logged hplaced hbs hr
        intro heq
        have hplace : q = r.place :=
          hplaced.pointer_inj (by rw [heq]; exact (hfits b hb).1) (by omega)
        exact hne (by rw [hplace])
      · -- at the others the pointer that was there is left
        rw [pointer_filled_of_not hq]
        exact (unnamed_iff (by omega) hcopied _ hstored).mpr
          (hleft ((live_self_iff hcount hstored hi).mp hlive)) b hb q
    · rw [kept_inode hstored hlive.1 hji]
      exact (unnamed_iff (by omega) hcopied _ hstored).mpr
        (hothers j ((kept_live hstored hji).mp hlive) hji) b hb q

/-- The new file's pointers are right exactly when the lowest blocks that are free
have numbers that fit. -/
theorem faithful_iff (hbs : 512 ≤ sb.blockSize) (hcount : sb.inodeCount ≤ 65535)
    (hcopied : Copied stale sb fs f n data tables log s)
    (hstored : InodeStored sb fs (filledInode (inodeAt sb fs.bytes i) filename i n data tables)
      i s ib itab fs')
    (hi : i < sb.inodeCount) (hdone : ¬ 0 < s.dataLeft) :
    Faithful sb fs'.bytes i log ↔ Numbered sb fs.bytes i (intOfUint n).toNat := by
  have hmem := mem_taken_iff hbs hcopied hdone
  obtain ⟨hdata, htables⟩ := copied_complete hcopied hbs hdone
  constructor
  · intro h b hb hfree hrank
    have htaken := (hmem b).mpr ⟨hb, hfree, hrank⟩
    obtain ⟨hne, hlt⟩ := h.fits hbs hcopied hstored hi htaken
    refine ⟨hne, hlt, fun j p hlive hji => ?_, fun hi0 => ?_⟩
    · have hlive' := (kept_live hstored hji).mpr hlive
      refine (unnamed_iff (by omega) hcopied _ hstored).mp (fun c hc q => ?_) b htaken p
      rw [← kept_inode hstored hlive.1 hji]
      exact h.unnamed hcopied hc hlive' fun r _ hpair => hji (congrArg Prod.fst hpair)
    · rw [← htables, ← hdata]
      refine (unnamed_iff (by omega) hcopied _ hstored).mp (fun c hc q => ?_) b htaken
      have hc0 := (h.fits hbs hcopied hstored hi hc).1
      by_cases hq : Covered data.length tables.length q
      · rw [pointer_leftover_of_covered hq]
        exact hc0.symm
      · rw [← pointer_filled_of_not hq, ← hstored.inodeAt_self hi]
        refine h.unnamed hcopied hc ((live_self_iff hcount hstored hi).mpr hi0) ?_
        intro r hr hpair
        have hplace : q = r.place := congrArg Prod.snd hpair
        rw [hplace] at hq
        exact hq (covered_of_mem hbs hcopied hr)
  · intro h
    have hall : ∀ b ∈ data ++ tables, _ := fun b hb =>
      h b ((hmem b).mp hb).1 ((hmem b).mp hb).2.1 ((hmem b).mp hb).2.2
    refine faithful_of_fits hbs hcount hcopied hstored hi
      (fun b hb => ⟨(hall b hb).1, (hall b hb).2.1⟩)
      (fun j hlive hji b hb p => (hall b hb).2.2.1 j p hlive hji) fun hi0 b hb => ?_
    rw [hdata, htables]
    exact (hall b hb).2.2.2 hi0

end NewFile

/-- On every image that fs_create makes with less than 2^31 bytes, the pointers that a
successful add_file stores are the indices it reserved, and name no other block, exactly
when the lowest free blocks, as many as the file takes, have numbers that fit. The tables
and blocks are those the numbers of the superblock address. -/
theorem addFile_pointers_iff {stale label filename : Memory} {sb : Superblock}
    {bs ic dc n : ℕ} {fs₀ fs fs' f : File} (hdc : dc < 2 ^ 31)
    (hcreate : fsCreate label bs ic dc = .ok fs₀) (hsize : fs₀.size < 2 ^ 31)
    (hsb : superblockCreate label bs ic dc = .ok sb) (hread : Superblock.ofMemory fs.bytes = sb)
    (hn : n < 2 ^ 32) (hadd : addFile stale f filename n fs = .ok (.added, fs')) :
    ∃ log, addFileLog stale f filename n fs = .ok (.added, fs', log) ∧
      ∃ i, firstFree (inodeBit (effective sb) fs.bytes) ic = some i ∧
        (inodeAt (effective sb) fs'.bytes i).shownName = cut 31 filename ∧
        (Faithful (effective sb) fs'.bytes i log ↔
          Numbered (effective sb) fs.bytes i (intOfUint n).toNat) := by
  have hvalid : superblockValid fs.bytes := by
    by_contra hv
    rw [addFile, superblockRead_invalid fs hv] at hadd
    cases hadd
  have hbs : bs ∈ blockSizes := by
    rw [← superblockCreate_blockSize hsb, ← hread]
    exact hvalid.2.2
  obtain ⟨hlabel, hic, hic', hdc0⟩ := fsCreate_accepts hcreate
  obtain ⟨sb', fs₀', hsb', hcomp, hcreate', hreach, -⟩ :=
    fsCreate_spec hlabel hbs hic hic' hdc0 hdc
  obtain rfl : sb = sb' := Except.ok.inj (hsb.symm.trans hsb')
  obtain rfl : fs₀ = fs₀' := Except.ok.inj (hcreate.symm.trans hcreate')
  have hwithin := hcomp.within hbs hic' hdc0 hdc hreach hsize
  have hr := hcomp.effective_regions hbs hic hic' hdc0 hdc (by omega)
  have hicount : (effective sb).inodeCount = ic := hcomp.inodeCount
  have hbs' : sb.blockSize ∈ blockSizes := hr.blockSize_mem
  obtain ⟨log, hlog⟩ := exists_log hadd
  obtain ⟨p, hsuper⟩ := superblockRead_spec fs hvalid
  rw [hread] at hsuper
  have hstart : 0 < (effective sb).inodeStart := by
    have hafter₁ := hr.inodeBitmap_after
    have hafter₂ := hr.datablockBitmap_after
    have hafter₃ := hr.inodes_after
    omega
  have hlogIn : addFileLogIn stale (effective sb) f filename n (fs.movedTo p) =
      .ok (.added, fs', log) := by
    rw [addFileLogIn_effective hbs' stale hstart, ← hlog, addFileLog, hsuper, ok_bind]
  refine ⟨log, hlog, ?_⟩
  rcases addFileLogIn_spec hr (by omega) fs p stale filename f hn with
    ⟨-, p, hrun⟩ | ⟨-, -, p, hrun⟩ |
    ⟨-, i, hslot, data, tables, log', s, hcopied, ⟨-, hrun⟩ | ⟨hdone, ib, itab, fs'', hrun,
      hstored⟩⟩
  · cases hlogIn.symm.trans hrun
  · cases hlogIn.symm.trans hrun
  · cases hlogIn.symm.trans hrun
  · cases hlogIn.symm.trans hrun
    have hi := (firstFree_some hslot).1
    refine ⟨i, by rw [← hicount]; exact hslot, ?_, faithful_iff hr.blockSize_bounds.1 (by omega)
      hcopied hstored hi hdone⟩
    rw [hstored.inodeAt_self hi]
    exact takenInode_shownName _ _ _ _ _ _

/-- With 7 data blocks ROUND_UP gives their bitmap 2^32 bytes, so that the inode table
overwrites it and block 0 is not reserved. -/
example : (fsCreate FS_SIGNATURE 512 8 7 >>= fun fs =>
    (addFileLog (fun _ => 0) (zeroFile 1) (nameOf 97) 1 fs).map fun r => (r.1, r.2.2)) =
      .ok (.added, [⟨.direct 0, 0⟩]) := by decide +kernel

section UsedImage

/-- An image without files whose first 8 * k data blocks are marked. -/
def usedImage (sb : Superblock) (k : ℕ) : File where
  bytes := fun a =>
    if sb.blockSize * sb.datablockBitmapStart ≤ a ∧
      a < min (sb.blockSize * sb.datablockBitmapStart + k) (emptyImage sb).size then 255
    else (emptyImage sb).bytes a
  size := (emptyImage sb).size
  pos := 0
  eof := fun a ha => by
    rw [if_neg (by omega)]
    exact (emptyImage sb).eof a ha

variable {sb : Superblock} {k : ℕ}

theorem usedImage_dataBit (hl : Layout sb) (hk : 0 < k) (hfit : 8 * k ≤ sb.datablockCount) :
    ∀ b < sb.datablockCount, dataBit sb (usedImage sb k).bytes b = true ↔ b < 8 * k := by
  have hoffsets := hl.regions.offsets
  obtain ⟨-, hdb, -⟩ := hl.tables_fit
  intro b hb
  rw [dataBit, bitAt]
  by_cases hbk : b / 8 < k
  · have hsize : (emptyImage sb).size = sb.blockSize * (sb.datablocksStart + sb.datablockCount) :=
      rfl
    have hend := dataRegion_end sb
    have hbyte : (usedImage sb k).bytes (sb.blockSize * sb.datablockBitmapStart + b / 8) =
        BitVec.allOnes 8 := if_pos (by omega)
    rw [hbyte, BitVec.getLsbD_allOnes]
    exact iff_of_true (by simpa using Nat.mod_lt b (by omega)) (by omega)
  · have hbyte : (usedImage sb k).bytes (sb.blockSize * sb.datablockBitmapStart + b / 8) =
        (emptyImage sb).bytes (sb.blockSize * sb.datablockBitmapStart + b / 8) :=
      if_neg (by omega)
    rw [hbyte]
    have hempty := (emptyImage_empty hl).dataBit_iff b hb
    rw [dataBit, bitAt] at hempty
    rw [hempty]
    omega

/-- The metadata other than the data bitmap is that of the empty image. -/
theorem usedImage_bytes (hl : Layout sb) (hfit : 8 * k ≤ sb.datablockCount) {a : ℕ}
    (ha : a < sb.blockSize * sb.datablockBitmapStart ∨ sb.blockSize * sb.inodeStart ≤ a) :
    (usedImage sb k).bytes a = (emptyImage sb).bytes a := by
  have hoffsets := hl.regions.offsets
  obtain ⟨-, hdb, -⟩ := hl.tables_fit
  exact if_neg (by omega)

theorem usedImage_inodeAt (hl : Layout sb) (hfit : 8 * k ≤ sb.datablockCount) :
    ∀ i < sb.inodeCount, inodeAt sb (usedImage sb k).bytes i = Inode.zero := by
  intro i hi
  rw [← (emptyImage_empty hl).inode i hi]
  apply inodeAt_congr
  intro t ht
  exact usedImage_bytes hl hfit (by omega)

theorem usedImage_inodeBit (hl : Layout sb) (hfit : 8 * k ≤ sb.datablockCount) :
    ∀ i < sb.inodeCount, inodeBit sb (usedImage sb k).bytes i = true ↔ i = 0 := by
  have hoffsets := hl.regions.offsets
  obtain ⟨hib, -, -⟩ := hl.tables_fit
  intro i hi
  rw [← (emptyImage_empty hl).inodeBit_iff i hi, inodeBit, bitAt,
    usedImage_bytes hl hfit (Or.inl (by omega))]
  rfl

theorem usedImage_accessible (hl : Layout sb) (hs : Signed sb) (hic : sb.inodeCount ≤ 65535)
    (hfit : 8 * k ≤ sb.datablockCount) : Accessible sb (usedImage sb k) := by
  have hbounds := hl.blockSize_bounds
  have hoffsets := hl.regions.offsets
  have hhead : ∀ t < Superblock.byteSize, (usedImage sb k).bytes t = sb.toMemory t := by
    intro t ht
    have hsize : Superblock.byteSize = 78 := rfl
    have hend := dataRegion_end sb
    rw [usedImage_bytes hl hfit (Or.inl (by omega))]
    simp only [emptyImage]
    rw [if_neg (by omega), if_pos ht]
  obtain ⟨hread, hvalid⟩ := hs.read hhead
  exact
    { superblock := hread
      valid := hvalid
      regions := hl.regions
      inodeCount_le := hic
      clear_zero := fun i hi _ => usedImage_inodeAt hl hfit i hi }

theorem demand_one (hbs : 512 ≤ sb.blockSize) : blocksFor sb 1 = 1 ∧ demand sb 1 = 1 := by
  have hblocks : blocksFor sb 1 = 1 := by
    rw [blocksFor, Nat.add_sub_cancel_left]
    exact Nat.div_self (by omega)
  refine ⟨hblocks, ?_⟩
  rw [demand, hblocks, tablesFor]
  simp only [Nat.reduceLeDiff, Nat.sub_eq_zero_of_le, Nat.zero_add]
  rw [Nat.div_eq_of_lt (by omega)]

/-- A file of one byte can be added as long as a block is free. -/
theorem usedImage_stored (hl : Layout sb) (hs : Signed sb) (hic : 1 < sb.inodeCount)
    (hic' : sb.inodeCount ≤ 65535) (hk : 0 < k) (hfit : 8 * k < sb.datablockCount) :
    ∃ i < sb.inodeCount, inodeBit sb (usedImage sb k).bytes i = false ∧
      ∃ data tables log s ib itab fs',
        Copied (fun _ => 0) sb (usedImage sb k) (zeroFile 1) 1 data tables log s ∧
        Stored sb (usedImage sb k) (nameOf 97) 1 i data tables s ib itab fs' ∧
        ¬ 0 < s.dataLeft ∧ addFileLog (fun _ => 0) (zeroFile 1) (nameOf 97) 1 (usedImage sb k) =
          .ok (.added, fs', log) := by
  have hbounds := hl.blockSize_bounds
  have ha := usedImage_accessible hl hs hic' (Nat.le_of_lt hfit)
  have hzero := usedImage_inodeAt hl (Nat.le_of_lt hfit)
  obtain ⟨hblocks, hdemand⟩ := demand_one hbounds.1
  rcases addFileLog_spec ha (fun _ => 0) (nameOf 97) (zeroFile 1) (by decide : 1 < 2 ^ 32) with
    ⟨hfound, -⟩ | ⟨-, hheld, -⟩ | ⟨-, i, hi, hfree, data, tables, log, s, hcopied, hrun⟩
  · refine absurd (lookup_none_iff.mpr fun i hlive => ?_) hfound
    exact (hlive.2 (by rw [hzero i hlive.1]; rfl)).elim
  · have hone := (usedImage_inodeBit hl (Nat.le_of_lt hfit) 1 hic).mp (hheld 1 hic)
    exact absurd hone (by decide)
  · have hdone : ¬ 0 < s.dataLeft := by
      rw [copied_done_iff hcopied hbounds.1]
      change blocksFor sb 1 ≤ _ ∧ demand sb 1 ≤ _
      rw [hblocks, hdemand, capacity, freeBlocks]
      refine ⟨by omega, freeCount_pos_iff.mpr ⟨8 * k, hfit, ?_⟩⟩
      have hbit := usedImage_dataBit hl hk (Nat.le_of_lt hfit) (8 * k) hfit
      simpa using hbit
    rcases hrun with ⟨hleft, -⟩ | ⟨-, ib, itab, fs', hrun, hstored⟩
    · exact absurd hleft hdone
    · exact ⟨i, hi, hfree, data, tables, log, s, ib, itab, fs', hcopied, hstored, hdone, hrun⟩

/-- fs_create makes an image of 65544 data blocks in 512-byte blocks. -/
theorem exists_wideSuperblock : ∃ sb fs₀, superblockCreate FS_SIGNATURE 512 8 65544 = .ok sb ∧
    fsCreate FS_SIGNATURE 512 8 65544 = .ok fs₀ ∧ fs₀.size < 2 ^ 31 ∧
    Layout sb ∧ Signed sb ∧ sb.inodeCount = 8 ∧ sb.datablockCount = 65544 := by
  obtain ⟨sb, fs₀, hsb, hcomp, hcreate, -, hsize, -⟩ := fsCreate_spec
    (by decide : FS_SIGNATURE 0 ≠ 0) (by decide : 512 ∈ blockSizes) (by decide : 0 < 8)
    (by decide) (by decide : 0 < 65544) (by decide)
  have hstart : sb.datablocksStart = 20 := by
    rw [hcomp.datablocksStart, hcomp.inodeStart, hcomp.datablockBitmapStart,
      hcomp.inodeBitmapBlockCount, hcomp.datablockBitmapBlockCount, hcomp.inodeBlockCount]
    decide
  have hend : 512 * (sb.datablocksStart + 65544) < 2 ^ 31 := by omega
  have hl := hcomp.layout (by decide) (by decide) (by decide) (by decide) (by decide)
    (by decide) (by decide) (Nat.le_of_lt hend)
  rw [effective_of_regions hl.regions] at hsize
  exact ⟨sb, fs₀, hsb, hcreate, Nat.lt_of_le_of_lt (hsize (Nat.le_of_lt hend)) hend, hl,
    hcomp.signed, hcomp.inodeCount, hcomp.datablockCount⟩

/-- With block 8 the lowest free one, its number is stored. -/
theorem addFile_pointers_iff_used : ∃ sb fs' log,
    superblockCreate FS_SIGNATURE 512 8 65544 = .ok sb ∧ effective sb = sb ∧
    addFileLog (fun _ => 0) (zeroFile 1) (nameOf 97) 1 (usedImage sb 1) =
      .ok (.added, fs', log) ∧
    ∃ i, firstFree (inodeBit sb (usedImage sb 1).bytes) 8 = some i ∧
      Faithful sb fs'.bytes i log := by
  obtain ⟨sb, fs₀, hsb, hcreate, hsize, hl, hs, hic, hdc⟩ := exists_wideSuperblock
  have hfit : 8 * 1 ≤ sb.datablockCount := by omega
  have ha := usedImage_accessible hl hs (by omega) hfit
  have heffective := effective_of_regions hl.regions
  obtain ⟨_, _, _, _, _, _, _, _, _, fs', _, _, _, hadded⟩ :=
    usedImage_stored hl hs (by omega) (by omega) (by decide : 0 < 1) (by omega)
  obtain ⟨log, hlog, i, hslot, -, hiff⟩ := addFile_pointers_iff (by decide) hcreate hsize hsb
    ha.superblock (by decide) (addFile_of_log hadded)
  rw [heffective] at hslot hiff
  refine ⟨sb, fs', log, hsb, heffective, hlog, i, hslot, hiff.mpr ?_⟩
  have hi : i < 8 := (firstFree_some hslot).1
  have hbits := usedImage_dataBit hl (by decide : 0 < 1) hfit
  have hempty := usedImage_inodeAt hl hfit
  intro b hb hclear hrank
  have hb8 := eq_add_of_initial hbits hb hclear
  have hdemand : demand sb (intOfUint 1).toNat = 1 := (demand_one hl.blockSize_bounds.1).2
  refine ⟨by omega, by omega, fun j p hlive _ => ?_, fun _ p => ?_⟩
  · exact (hlive.2 (by rw [hempty j hlive.1]; rfl)).elim
  · rw [hempty i (by omega), leftover_zero, pointer_zero]
    omega

/-- With all blocks below 65536 in use a file of one byte gets block 65536, and the
pointer stored for it is 0, which means no block. -/
theorem addFile_pointers_wrap : ∃ sb fs₀ fs' log i,
    superblockCreate FS_SIGNATURE 512 8 65544 = .ok sb ∧
    fsCreate FS_SIGNATURE 512 8 65544 = .ok fs₀ ∧ fs₀.size < 2 ^ 31 ∧ effective sb = sb ∧
    Accessible sb (usedImage sb 8192) ∧
    addFileLog (fun _ => 0) (zeroFile 1) (nameOf 97) 1 (usedImage sb 8192) =
      .ok (.added, fs', log) ∧
    (inodeAt sb fs'.bytes i).shownName = cut 31 (nameOf 97) ∧ ⟨.direct 0, 65536⟩ ∈ log ∧
    directAt (inodeAt sb fs'.bytes i) 0 = 0 ∧ ¬ Faithful sb fs'.bytes i log := by
  obtain ⟨sb, fs₀, hsb, hcreate, hsize, hl, hs, hic, hdc⟩ := exists_wideSuperblock
  have hfit : 8 * 8192 ≤ sb.datablockCount := by omega
  have ha := usedImage_accessible hl hs (by omega) hfit
  obtain ⟨i, hi, hfree, data, tables, log, s, ib, itab, fs', hcopied, hstored, hdone, hrun⟩ :=
    usedImage_stored hl hs (by omega) (by omega) (by decide : 0 < 8192) (by omega)
  have hbs := hl.blockSize_bounds.1
  have hlength : data.length = blocksFor sb 1 := (copied_complete hcopied hbs hdone).1
  rw [(demand_one hbs).1] at hlength
  have hdata : 0 < data.length := by omega
  have hrank := hcopied.logged.data_rank 0 hdata
  obtain ⟨hlt, hclear⟩ := hcopied.progress.fresh _ (List.mem_append_left tables (getD_mem hdata))
  have hfirst := eq_add_of_initial (usedImage_dataBit hl (by decide) hfit) hlt hclear
  rw [hrank, show dataRank sb 0 = 0 from rfl] at hfirst
  have hmem : (⟨.direct 0, 65536⟩ : Reservation) ∈ log := by
    refine (hcopied.logged.mem_iff _).mpr (Or.inl ⟨0, hdata, ?_⟩)
    rw [hfirst]
    rfl
  have hpointer : directAt (inodeAt sb fs'.bytes i) 0 = 0 := by
    rw [hstored.inodeAt_self hi]
    change (BitVec.ofNat 16 (data.getD 0 0)).toNat = 0
    rw [hfirst]
    rfl
  refine ⟨sb, fs₀, fs', log, i, hsb, hcreate, hsize, effective_of_regions hl.regions, ha, hrun, ?_,
    hmem, hpointer, fun h => ?_⟩
  · rw [hstored.inodeAt_self hi, newInode_shownName]
  · exact h.nonzero _ hmem hpointer

end UsedImage

end RathalOS.StoredPointers
