import RathalOS.AddOrder
import RathalOS.ResourceCounts

/-!
The tools that only look at an image: fs_info.c, fs_list.c and fs_cat.c. In an image that the
other tools made by calls that are admissible (a deletion takes only the file's own blocks
for its entries), the listing has one line for each file stored, what is used up is what the
listed files need, and each of them prints as it was stored.
-/
namespace RathalOS.ImageReports

open ByteMemory ByteFile Blocks Bitmaps CStrings Superblocks Inodes FirstFit Ownership Images
open FileAccess AddFile AddOutcomes Reservations AddedFiles DeletedFiles DeleteFile ReadBack
open ImageRuns Admission EmptyImages ResourceCounts Histories

/-- What display_bitmap_usage prints. The percentage it prints too is computed from both. -/
structure Usage where
  used : ℕ
  total : ℕ
  deriving DecidableEq

def displayBitmapUsage (bitmap : Bitmap) : Except Fault Usage := do
  let freeBits ← bitmapGetFreeBits bitmap
  .ok ⟨uint (bitmap.count + (2 ^ 32 - freeBits)), bitmap.count⟩

/-- What fs_info prints of an image: its size, the fields of its superblock and the usage. -/
structure Info where
  size : ℕ
  superblock : Superblock
  inodes : Usage
  datablocks : Usage

def fsInfo (fs : File) : Except Fault Info := do
  let (sb, fs) ← superblockRead fs
  let bs := sb.blockSize
  let (inodeBitmap, fs) ← bitmapRead sb.inodeBitmapStart sb.inodeCount bs fs
  let (datablockBitmap, fs) ← bitmapRead sb.datablockBitmapStart sb.datablockCount bs fs
  let inodes ← displayBitmapUsage inodeBitmap
  let datablocks ← displayBitmapUsage datablockBitmap
  .ok { size := fs.size, superblock := sb, inodes := inodes, datablocks := datablocks }

/-- A line of fs_list. -/
structure Listed where
  name : List Byte
  number : ℕ
  size : ℕ
  deriving DecidableEq

/-- The line for an inode. A name without a terminator would be printed past its array. -/
def listed (inode : Inode) : Except Fault Listed :=
  let name := cut INODE_FILENAME_LENGTH inode.namePtr
  if name.length < INODE_FILENAME_LENGTH then
    .ok { name := name, number := inode.number.toNat, size := inode.size.toNat }
  else .error .undefined

/-- The loop of list_files over the n slots from i on. -/
def listLoop (itab : InodeTable) : ℕ → ℕ → Except Fault (List Listed)
  | _, 0 => .ok []
  | i, n + 1 => do
    let inode ← inodeGet itab i
    if inode.number ≠ 0 then do
      let line ← listed inode
      let rest ← listLoop itab (i + 1) n
      .ok (line :: rest)
    else listLoop itab (i + 1) n

def listFiles (fs : File) : Except Fault (List Listed) := do
  let (sb, fs) ← superblockRead fs
  let (itab, _) ← inodeTableRead sb.inodeCount sb.inodeStart sb.blockSize fs
  listLoop itab 0 itab.inodeCount

/-- How cat_file ended, with the bytes written to stdout. -/
inductive CatOutcome
  | printed (bytes : List Byte)
  | notFound
  | notRead
  deriving DecidableEq

/-- The format that cat_file prints to stderr, whose argument is the file name. Where fs_read
has failed, its message is the only one. -/
def CatOutcome.message : CatOutcome → Option String
  | .printed _ => none
  | .notFound => some "File not found (\"%s\")!\n"
  | .notRead => none

/-- Two buffers are not initialised: stale is the one of a block in fs_read, buf the one for
the whole file. -/
def catFile (stale buf filename : Memory) (fs : File) : Except Fault CatOutcome := do
  let (sb, fs) ← superblockRead fs
  let (itab, fs) ← inodeTableRead sb.inodeCount sb.inodeStart sb.blockSize fs
  let found ← fsGetFileInode filename itab
  match found with
  | none => .ok .notFound
  | some i => do
    let inode ← inodeGet itab i
    let count := inode.size.toNat
    let (status, buf, _) ← fsRead stale filename 0 count buf fs
    match status with
    | .done => .ok (.printed ((List.range count).map buf))
    | .notFound => .ok .notRead

section Names

variable {sb : Superblock} {m : Memory}

/-- The last byte of every name in use is a terminator. -/
def NamesEnd (sb : Superblock) (m : Memory) : Prop :=
  ∀ i, Live sb m i → (inodeAt sb m i).namePtr 31 = 0

theorem cut_succ_of_zero {n : ℕ} {p : Memory} (h : p n = 0) : cut (n + 1) p = cut n p := by
  induction n generalizing p with
  | zero => exact cut_of_zero 1 h
  | succ n ih =>
    by_cases h0 : p 0 = 0
    · rw [cut_of_zero _ h0, cut_of_zero _ h0]
    · rw [cut_succ _ h0, cut_succ _ h0, ih]
      rw [advance_apply, Nat.add_comm]
      exact h

/-- The line of a file whose name ends. -/
def lineOf (inode : Inode) : Listed :=
  { name := inode.shownName, number := inode.number.toNat, size := inode.size.toNat }

theorem listed_eq {inode : Inode} (h : inode.namePtr 31 = 0) :
    listed inode = .ok (lineOf inode) := by
  have hname : cut INODE_FILENAME_LENGTH inode.namePtr = inode.shownName := cut_succ_of_zero h
  have hlength : inode.shownName.length < INODE_FILENAME_LENGTH :=
    Nat.lt_succ_of_le (cut_length_le 31 _)
  rw [listed, hname, if_pos hlength]
  rfl

def used (sb : Superblock) (m : Memory) (i : ℕ) : Bool := decide ((inodeAt sb m i).number ≠ 0)

/-- The slots of an image in use, in order. -/
def liveSlots (sb : Superblock) (m : Memory) : List ℕ :=
  (List.range sb.inodeCount).filter (used sb m)

theorem mem_liveSlots {i : ℕ} : i ∈ liveSlots sb m ↔ Live sb m i := by
  rw [liveSlots, List.mem_filter, List.mem_range, used, decide_eq_true_eq]
  rfl

/-- The loop prints one line for each slot in use that is left. -/
theorem listLoop_eq (hends : NamesEnd sb m) {i n : ℕ} (hin : i + n = sb.inodeCount) :
    listLoop (inodeTableOf sb m) i n =
      .ok (((List.range' i n).filter (used sb m)).map fun i => lineOf (inodeAt sb m i)) := by
  induction n generalizing i with
  | zero => rfl
  | succ n ih =>
    have hi : i < sb.inodeCount := by omega
    have hget : inodeGet (inodeTableOf sb m) i = .ok (inodeAt sb m i) := by
      rw [inodeGet, if_pos (by exact hi), inodeTableOf_inode hi]
    rw [listLoop, hget, ok_bind, List.range'_succ]
    by_cases hlive : (inodeAt sb m i).number ≠ 0
    · rw [if_pos hlive, listed_eq (hends i ⟨hi, hlive⟩), ok_bind, ih (by omega), ok_bind,
        List.filter_cons_of_pos (show used sb m i = true from decide_eq_true hlive), List.map_cons]
    · have hunused : ¬ used sb m i = true := by
        rw [used, decide_eq_true_eq]
        exact hlive
      rw [if_neg hlive, ih (by omega), List.filter_cons_of_neg hunused]

end Names

section Usage

variable {sb : Superblock} {fs : File}

/-- The places at which a file of k blocks names its blocks and their tables. -/
def placesFor (sb : Superblock) (k : ℕ) : Finset Place :=
  (Finset.range k).image (filePlace sb) ∪ (Finset.range (tablesFor sb k)).image .indirect

theorem filePlace_injective (hbs : 512 ≤ sb.blockSize) : Function.Injective (filePlace sb) := by
  have hpos : 0 < sb.blockSize / 2 := by omega
  intro k l hkl
  unfold filePlace at hkl
  split at hkl
  · split at hkl
    · exact Place.direct.inj hkl
    · cases hkl
  · split at hkl
    · cases hkl
    · obtain ⟨hdiv, hmod⟩ := Place.entry.inj hkl
      have hk := Nat.div_add_mod (k - 4) (sb.blockSize / 2)
      rw [hdiv, hmod, Nat.div_add_mod] at hk
      omega

theorem card_placesFor (hbs : 512 ≤ sb.blockSize) (k : ℕ) :
    (placesFor sb k).card = k + tablesFor sb k := by
  have hdisjoint : Disjoint ((Finset.range k).image (filePlace sb))
      ((Finset.range (tablesFor sb k)).image Place.indirect) := by
    rw [Finset.disjoint_left]
    intro p hp hp'
    obtain ⟨i, -, rfl⟩ := Finset.mem_image.mp hp
    obtain ⟨j, -, hj⟩ := Finset.mem_image.mp hp'
    unfold filePlace at hj
    split at hj <;> cases hj
  have hindirect : Function.Injective Place.indirect := fun _ _ h => Place.indirect.inj h
  rw [placesFor, Finset.card_union_of_disjoint hdisjoint,
    Finset.card_image_of_injective _ (filePlace_injective hbs),
    Finset.card_image_of_injective _ hindirect, Finset.card_range, Finset.card_range]

/-- A file of exactly the blocks it needs names blocks at these places only. -/
theorem mem_placesFor {m : Memory} {inode : Inode} (hbs : 512 ≤ sb.blockSize)
    (hs : SizeExact sb m inode) (p : Place) :
    p ∈ placesFor sb (blocksFor sb inode.size.toNat) ↔ pointer sb m inode p ≠ 0 := by
  have hcapacity := hs.capacity
  have hsum : p ∈ placesFor sb (blocksFor sb inode.size.toNat) ↔
      (∃ k < blocksFor sb inode.size.toNat, filePlace sb k = p) ∨
        ∃ i, 4 + i * (sb.blockSize / 2) < blocksFor sb inode.size.toNat ∧ .indirect i = p := by
    simp only [placesFor, Finset.mem_union, Finset.mem_image, Finset.mem_range,
      lt_tablesFor_iff hbs]
  rw [hsum]
  cases p with
  | direct i =>
    have hplace : (∃ k < blocksFor sb inode.size.toNat, filePlace sb k = .direct i) ↔
        i < 4 ∧ i < blocksFor sb inode.size.toNat := by
      constructor
      · rintro ⟨k, hk, heq⟩
        unfold filePlace at heq
        split at heq
        · rename_i h4
          cases heq
          exact ⟨h4, hk⟩
        · cases heq
      · rintro ⟨h4, hi⟩
        exact ⟨i, hi, if_pos h4⟩
    rw [hplace, or_iff_left (by simp)]
    by_cases h4 : i < 4
    · rw [pointer, hs.direct_iff i h4, and_iff_right h4]
    · simp [pointer, directAt, h4]
  | indirect i =>
    have hplace : ¬ ∃ k < blocksFor sb inode.size.toNat, filePlace sb k = .indirect i := by
      rintro ⟨k, -, heq⟩
      unfold filePlace at heq
      split at heq <;> cases heq
    rw [or_iff_right hplace]
    simp only [Place.indirect.injEq, exists_eq_right]
    by_cases h9 : i < 9
    · rw [pointer, hs.indirect_iff i h9]
    · have hmono := Nat.mul_le_mul_right (sb.blockSize / 2) (Nat.le_of_not_lt h9)
      simp only [pointer, indirectAt, dif_neg h9, ne_eq, not_true_eq_false, iff_false]
      omega
  | entry i j =>
    rw [or_iff_left (by simp)]
    have hplace : (∃ k < blocksFor sb inode.size.toNat, filePlace sb k = .entry i j) ↔
        j < sb.blockSize / 2 ∧ 4 + i * (sb.blockSize / 2) + j < blocksFor sb inode.size.toNat := by
      constructor
      · rintro ⟨k, hk, heq⟩
        unfold filePlace at heq
        split at heq
        · cases heq
        · obtain ⟨rfl, rfl⟩ := Place.entry.inj heq
          have hdiv := Nat.div_add_mod' (k - 4) (sb.blockSize / 2)
          exact ⟨Nat.mod_lt _ (by omega), by omega⟩
      · rintro ⟨hj, hk⟩
        exact ⟨_, hk, filePlace_entry hj⟩
    rw [hplace]
    by_cases hj : j < sb.blockSize / 2
    · rw [and_iff_right hj]
      by_cases h9 : i < 9
      · rw [pointer, hs.entry_iff i h9 j hj]
      · have hmono := Nat.mul_le_mul_right (sb.blockSize / 2) (Nat.le_of_not_lt h9)
        simp only [pointer, entryAt, indirectAt, dif_neg h9, ne_eq, not_true_eq_false, false_and,
          if_false, iff_false]
        omega
    · simp [pointer, entryAt, hj]

theorem liveSlots_nodup (m : Memory) : (liveSlots sb m).Nodup := List.nodup_range.filter _

theorem slot_ne_zero (hc : Consistent sb fs) {i : ℕ} (hi : Live sb fs.bytes i) :
    i ≠ 0 ∧ (inodeAt sb fs.bytes i).number.toNat = i := by
  have hnumber := (hc.number i hi.1).resolve_left hi.2
  refine ⟨?_, hnumber⟩
  rintro rfl
  exact hi.2 (BitVec.eq_of_toNat_eq hnumber)

/-- Inode 0 is reserved, and the others are held by the files. -/
theorem heldCount_inodeBit (hc : Consistent sb fs) :
    heldCount (inodeBit sb fs.bytes) sb.inodeCount = 1 + (liveSlots sb fs.bytes).length := by
  have htracked : Tracked (Live sb fs.bytes) (fun i (_ : Unit) => i) (inodeBit sb fs.bytes)
      sb.inodeCount := by
    constructor
    · intro i j p q _ _ _ heq
      exact ⟨heq, rfl⟩
    · intro i p hi
      exact hi.1
    · intro i hi
      rw [hc.inodeBit_iff i hi]
      refine or_congr_right' fun hne => ⟨fun hnumber => ?_, ?_⟩
      · refine ⟨i, (), ⟨hi, fun hzero => hne ?_⟩, rfl⟩
        rw [← hnumber, hzero]
        rfl
      · rintro ⟨j, -, hj, rfl⟩
        exact (slot_ne_zero hc hj).2
  have huse : InUse (Live sb fs.bytes) (fun i (_ : Unit) => i) (liveSlots sb fs.bytes).toFinset
      fun _ => {()} := by
    constructor
    · intro i
      rw [List.mem_toFinset, mem_liveSlots]
    · intro i hi p
      exact iff_of_true (Finset.mem_singleton.mpr rfl) (slot_ne_zero hc hi).1
  rw [heldCount_of_tracked htracked hc.layout.inodeCount_pos huse]
  simp [List.toFinset_card_of_nodup (liveSlots_nodup _)]

/-- Block 0 is reserved, and the others are held by the files, each by what it needs. -/
theorem heldCount_dataBit (hw : WellFormed sb fs) :
    heldCount (dataBit sb fs.bytes) sb.datablockCount =
      1 + ((liveSlots sb fs.bytes).map fun i =>
        demand sb (inodeAt sb fs.bytes i).size.toNat).sum := by
  have hbs := hw.layout.blockSize_bounds.1
  have huse : InUse (Live sb fs.bytes) (fun i => pointer sb fs.bytes (inodeAt sb fs.bytes i))
      (liveSlots sb fs.bytes).toFinset
      fun i => placesFor sb (blocksFor sb (inodeAt sb fs.bytes i).size.toNat) := by
    constructor
    · intro i
      rw [List.mem_toFinset, mem_liveSlots]
    · intro i hi p
      exact mem_placesFor hbs (hw.sizes i hi) p
  rw [heldCount_of_tracked hw.blocks hw.layout.datablockCount_pos huse,
    List.sum_toFinset _ (liveSlots_nodup _)]
  simp only [card_placesFor hbs]
  rfl

end Usage

section Reports

variable {sb : Superblock} {fs fs' : File}

theorem displayBitmapUsage_eq (m : Memory) (offset count : ℕ) (hcount : count < 2 ^ 31) :
    displayBitmapUsage (bitmapOf m offset count) =
      .ok ⟨heldCount (bitAt m offset) count, count⟩ := by
  have hfree : freeCount (bitmapOf m offset count).test count = freeCount (bitAt m offset) count :=
    freeCount_congr fun i hi => bitmapOf_test hi
  have hsum : freeCount (bitAt m offset) count + heldCount (bitAt m offset) count = count :=
    freeCount_add_heldCount count
  have hused : uint (count + (2 ^ 32 - freeCount (bitAt m offset) count)) =
      heldCount (bitAt m offset) count := by
    unfold uint
    omega
  rw [displayBitmapUsage, bitmapGetFreeBits_spec (bitmapOf_sized m offset count hcount), ok_bind]
  change Except.ok (Usage.mk (uint (count + (2 ^ 32 - freeCount _ count))) count) = _
  rw [hfree, hused]

/-- fs_info counts the held bits of both bitmaps. -/
theorem fsInfo_eq (hc : Consistent sb fs) : fsInfo fs = .ok
    { size := fs.size
      superblock := sb
      inodes := ⟨heldCount (inodeBit sb fs.bytes) sb.inodeCount, sb.inodeCount⟩
      datablocks := ⟨heldCount (dataBit sb fs.bytes) sb.datablockCount, sb.datablockCount⟩ } := by
  have hcount := hc.inodeCount_le
  have hdata := hc.datablockCount_le
  obtain ⟨p₁, p₂, p₃, p₄, hsb, hib, hdb, -⟩ :=
    hc.layout.regions.reads hc.superblock hc.valid
  rw [fsInfo, hsb, ok_bind]
  dsimp only
  rw [hib, ok_bind]
  dsimp only
  rw [hdb, ok_bind]
  dsimp only
  rw [displayBitmapUsage_eq _ _ _ (by omega), ok_bind,
    displayBitmapUsage_eq _ _ _ (by omega), ok_bind]
  rfl

theorem superblockRead_image (hc : Consistent sb fs) :
    ∃ p, superblockRead fs = .ok (sb, fs.movedTo p) := by
  obtain ⟨p, -, -, -, hsb, -⟩ := hc.layout.regions.reads hc.superblock hc.valid
  exact ⟨p, hsb⟩

/-- Where the file position is does not matter. -/
theorem consistent_movedTo (hc : Consistent sb fs) (p : ℕ) : Consistent sb (fs.movedTo p) :=
  ⟨hc.superblock, hc.valid, hc.layout, hc.covers, hc.inodeCount_le, hc.datablockCount_le,
    hc.number, hc.free_zero, hc.inodeBit_iff, hc.blocks⟩

theorem listFiles_eq (hc : Consistent sb fs) (hends : NamesEnd sb fs.bytes) :
    listFiles fs = .ok ((liveSlots sb fs.bytes).map fun i => lineOf (inodeAt sb fs.bytes i)) := by
  obtain ⟨p₁, hsb⟩ := superblockRead_image hc
  obtain ⟨p₂, hit⟩ := inodeTableRead_image (consistent_movedTo hc p₁)
  rw [listFiles, hsb, ok_bind]
  dsimp only
  rw [hit, ok_bind]
  exact (listLoop_eq hends (Nat.zero_add _)).trans (by rw [liveSlots, List.range_eq_range'])

theorem namePtr_newInode (filename : Memory) (i n : ℕ) (dptrs : Fin 4 → BitVec 16)
    (iptrs : Fin 9 → BitVec 16) : (newInode filename i n dptrs iptrs).namePtr 31 = 0 := by
  have hkept : (newInode filename i n dptrs iptrs).namePtr 31 =
      strncpy ({ Inode.zero with number := BitVec.ofInt 16 (i : ℤ) } : Inode).namePtr filename
        31 31 := Inode.namePtr_apply _ (by decide)
  rw [hkept, strncpy_apply, if_neg (by decide)]
  exact Inode.namePtr_apply _ (by decide)

theorem NamesEnd.of_same {m m' : Memory} (hends : NamesEnd sb m)
    (h : ∀ j, Live sb m' j → inodeAt sb m' j = inodeAt sb m j) : NamesEnd sb m' := by
  intro j hj
  have hsame := h j hj
  rw [hsame]
  exact hends j ⟨hj.1, hsame ▸ hj.2⟩

/-- A new file's name ends, and the others are kept. -/
theorem namesEnd_addFile (hc : Consistent sb fs) {stale filename : Memory} {f : File} {n : ℕ}
    (hn : n < 2 ^ 32) {outcome : AddOutcome} (hends : NamesEnd sb fs.bytes)
    (hok : addFile stale f filename n fs = .ok (outcome, fs')) : NamesEnd sb fs'.bytes := by
  have hunchanged : ∀ {fs'' : File} {outcome' : AddOutcome} {log : Log},
      addFileLog stale f filename n fs = .ok (outcome', fs'', log) →
      Scribbled sb fs.bytes fs''.bytes → NamesEnd sb fs'.bytes := by
    intro fs'' outcome' log hlog hscr
    rw [addFile_of_log hlog] at hok
    cases hok
    exact hends.of_same fun j hj => hscr.inodeAt hc.layout.regions hj.1
  rcases addFileLog_spec hc.accessible stale filename f hn with ⟨-, p, hlog⟩ | ⟨-, -, p, hlog⟩ |
    ⟨-, i, hi, hclear, data, tables, log, s, hcopied, ⟨-, hlog⟩ | ⟨hdone, ib, itab, fs'', hlog, h⟩⟩
  · exact hunchanged hlog (Scribbled.refl _ _)
  · exact hunchanged hlog (Scribbled.refl _ _)
  · exact hunchanged hlog (scribbled_of_progress hcopied.progress)
  · rw [addFile_of_log hlog] at hok
    cases hok
    intro j hj
    by_cases hji : j = i
    · rw [hji, h.inodeAt_self hi, namePtr_newInode]
    · have hsame : inodeAt sb fs'.bytes j = inodeAt sb fs.bytes j :=
        inodeAt_congr fun k hk => h.slot hj.1 hji hk
      rw [hsame]
      exact hends j ⟨hj.1, hsame ▸ hj.2⟩

/-- Calls keep the ends of the names. -/
theorem namesEnd_exec (hc : Consistent sb fs) {call : Call} {stale : Memory} {success : Bool}
    (hadmissible : call.Admissible sb fs) (hends : NamesEnd sb fs.bytes)
    (hok : call.exec stale fs = .ok (success, fs')) : NamesEnd sb fs'.bytes := by
  cases call with
  | add filename c =>
    have hlen : c.length < 2 ^ 31 := hadmissible
    obtain ⟨⟨outcome, fs''⟩, hadd, hret⟩ := bind_eq_ok hok
    cases hret
    exact namesEnd_addFile hc (by omega) hends hadd
  | delete filename =>
    obtain ⟨r, hdelete, hret⟩ := bind_eq_ok hok
    cases hret
    cases hfound : lookup filename (inodeTableOf sb fs.bytes) with
    | none =>
      obtain ⟨p, hnot⟩ := deleteFile_notPresent hc hfound stale
      rw [hnot] at hdelete
      cases hdelete
      exact hends
    | some i =>
      obtain ⟨r', hok', hexact, -, -⟩ :=
        deleteFile_of_harmless hc hfound stale (hadmissible i hfound)
      rw [hok'] at hdelete
      cases hdelete
      refine hends.of_same fun j hj => ?_
      by_cases hji : j = i
      · rw [hji] at hj
        exact absurd (congrArg Inode.number (inodeAt_cleared hexact.cleared)) hj.2
      · exact inodeAt_congr fun k hk => hexact.slots j hj.1 hji k hk

theorem namesEnd_run (hw : WellFormed sb fs) (hends : NamesEnd sb fs.bytes)
    {calls : List (Call × Bool)} (h : Run sb fs calls fs') : NamesEnd sb fs'.bytes := by
  induction h with
  | start => exact hends
  | step stale hrun hadmissible hexec ih =>
    exact namesEnd_exec (run_store hw hrun).1.toConsistent hadmissible ih hexec

/-- The lines fs_list prints for an image. -/
def lines (sb : Superblock) (m : Memory) : List Listed :=
  (liveSlots sb m).map fun i => lineOf (inodeAt sb m i)

/-- A line names a file and how long it is, and no two lines name the same. -/
theorem lines_store (hw : WellFormed sb fs) :
    ((lines sb fs.bytes).map Listed.name).Nodup ∧
    ∀ name size, (∃ line ∈ lines sb fs.bytes, line.name = name ∧ line.size = size) ↔
      ∃ c, storeOf sb fs.bytes name = some c ∧ c.length = size := by
  constructor
  · rw [lines, List.map_map]
    refine (liveSlots_nodup fs.bytes).map_on fun i hi j hj hname => ?_
    exact hw.names i j (mem_liveSlots.mp hi) (mem_liveSlots.mp hj) hname
  · intro name size
    constructor
    · rintro ⟨line, hline, rfl, rfl⟩
      obtain ⟨i, hi, rfl⟩ := List.mem_map.mp hline
      refine ⟨_, (storeOf_eq_some_iff hw.names).mpr ⟨i, mem_liveSlots.mp hi, rfl, rfl⟩, ?_⟩
      rw [fileContents, List.length_map, List.length_range]
      rfl
    · rintro ⟨c, hc, rfl⟩
      obtain ⟨i, hi, rfl, rfl⟩ := (storeOf_eq_some_iff hw.names).mp hc
      refine ⟨_, List.mem_map_of_mem (mem_liveSlots.mpr hi), rfl, ?_⟩
      rw [fileContents, List.length_map, List.length_range]
      rfl

theorem namesEnd_smallImage :
    NamesEnd smallSuperblock (emptyImage smallSuperblock).bytes :=
  fun i hi => absurd hi ((emptyImage_empty smallSuperblock_layout).not_live i)

theorem replay_smallFile (store : List Byte → Option (List Byte)) :
    replay store (events [(.add (nameOf 98) smallContents, true)]) (cut 31 (nameOf 98)) =
      some smallContents := by
  have hevents : events [(.add (nameOf 98) smallContents, true)] =
      [.put (cut 31 (nameOf 98)) smallContents] := by simp [events, Call.event]
  rw [hevents]
  exact Function.update_self (cut 31 (nameOf 98)) (some smallContents) store

/-- After a run of admissible calls fs_list prints one line for each file stored, with its
length, and nothing else. -/
theorem listFiles_store {fs₀ : File} (hw : WellFormed sb fs₀) (hends : NamesEnd sb fs₀.bytes)
    {calls : List (Call × Bool)} (h : Run sb fs₀ calls fs) :
    ∃ listing, listFiles fs = .ok listing ∧ (listing.map Listed.name).Nodup ∧
      ∀ name size, (∃ line ∈ listing, line.name = name ∧ line.size = size) ↔
        ∃ c, replay (storeOf sb fs₀.bytes) (events calls) name = some c ∧ c.length = size := by
  obtain ⟨hw', hstore⟩ := run_store hw h
  obtain ⟨hnodup, hlines⟩ := lines_store hw'
  rw [hstore] at hlines
  exact ⟨_, listFiles_eq hw'.toConsistent (namesEnd_run hw hends h), hnodup, hlines⟩

theorem listFiles_store_small : ∃ listing, listFiles smallFileImage = .ok listing ∧
    ∃ line ∈ listing, line.name = cut 31 (nameOf 98) ∧ line.size = 2 := by
  obtain ⟨listing, hok, -, hlines⟩ :=
    listFiles_store smallImage_wellFormed namesEnd_smallImage smallFileImage_run
  exact ⟨listing, hok, (hlines _ 2).mpr ⟨_, replay_smallFile _, rfl⟩⟩

/-- After a run of admissible calls fs_cat prints what is stored under a name, or that there
is nothing. -/
theorem catFile_store {fs₀ : File} (hw : WellFormed sb fs₀) {calls : List (Call × Bool)}
    (h : Run sb fs₀ calls fs) (stale buf filename : Memory) :
    catFile stale buf filename fs =
      .ok (match replay (storeOf sb fs₀.bytes) (events calls) (cut 31 filename) with
        | some c => .printed c
        | none => .notFound) := by
  obtain ⟨hw', hstore⟩ := run_store hw h
  have hc := hw'.toConsistent
  obtain ⟨p₁, hsb⟩ := superblockRead_image hc
  obtain ⟨p₂, hit⟩ := inodeTableRead_image (consistent_movedTo hc p₁)
  rw [catFile, hsb, ok_bind]
  dsimp only
  rw [hit, ok_bind]
  dsimp only
  rw [File.movedTo_bytes, fsGetFileInode_of_image, ok_bind, ← hstore]
  cases hfound : lookup filename (inodeTableOf sb fs.bytes) with
  | none =>
    have hnone : storeOf sb fs.bytes (cut 31 filename) = none := by
      simpa [hfound] using (lookup_isSome_eq hw'.names filename).symm
    rw [hnone]
  | some i =>
    obtain ⟨hi, hname⟩ := lookup_live hfound
    have hstored := (storeOf_eq_some_iff hw'.names).mpr ⟨i, hi, hname, rfl⟩
    have hlength : (fileContents sb fs.bytes (inodeAt sb fs.bytes i)).length =
        (inodeAt sb fs.bytes i).size.toNat := by
      rw [fileContents, List.length_map, List.length_range]
    have hget : inodeGet (inodeTableOf sb fs.bytes) i = .ok (inodeAt sb fs.bytes i) := by
      rw [inodeGet, if_pos (by exact hi.1), inodeTableOf_inode hi.1]
    have hmoved : WellFormed sb ((fs.movedTo p₁).movedTo p₂) :=
      ⟨consistent_movedTo (consistent_movedTo hc p₁) p₂, hw'.names, hw'.sizes⟩
    obtain ⟨p₃, hread⟩ := fsRead_store hmoved hstored stale buf
    rw [hstored]
    dsimp only
    rw [hget, ok_bind, ← hlength, hread, ok_bind]
    dsimp only
    congr 2
    apply List.ext_getElem
    · rw [List.length_map, List.length_range]
    · intro k hk hk'
      rw [List.getElem_map, List.getElem_range, if_pos hk', List.getD_eq_getElem _ 0 hk']

theorem catFile_store_small :
    catFile (fun _ => 0) (fun _ => 1) (nameOf 98) smallFileImage = .ok (.printed [7, 9]) := by
  rw [catFile_store smallImage_wellFormed smallFileImage_run, replay_smallFile]
  rfl

/-- After a run of admissible calls fs_info reports one inode in use for each line of fs_list
and the reserved one, and the data blocks that the sizes in these lines need and the reserved
one. -/
theorem fsInfo_listFiles {fs₀ : File} (hw : WellFormed sb fs₀) (hends : NamesEnd sb fs₀.bytes)
    {calls : List (Call × Bool)} (h : Run sb fs₀ calls fs) :
    ∃ listing info, listFiles fs = .ok listing ∧ fsInfo fs = .ok info ∧ info.superblock = sb ∧
      info.inodes = ⟨1 + listing.length, sb.inodeCount⟩ ∧
      info.datablocks =
        ⟨1 + (listing.map fun line => demand sb line.size).sum, sb.datablockCount⟩ := by
  obtain ⟨hw', -⟩ := run_store hw h
  refine ⟨_, _, listFiles_eq hw'.toConsistent (namesEnd_run hw hends h),
    fsInfo_eq hw'.toConsistent, rfl, ?_, ?_⟩
  · rw [heldCount_inodeBit hw'.toConsistent, List.length_map]
  · rw [heldCount_dataBit hw', List.map_map]
    rfl

theorem fsInfo_listFiles_small : ∃ listing info, listFiles smallFileImage = .ok listing ∧
    fsInfo smallFileImage = .ok info ∧ info.inodes = ⟨1 + listing.length, 8⟩ := by
  obtain ⟨listing, info, hlist, hinfo, -, hinodes, -⟩ :=
    fsInfo_listFiles smallImage_wellFormed namesEnd_smallImage smallFileImage_run
  exact ⟨listing, info, hlist, hinfo, hinodes⟩

/-- Only what is stored counts: two runs of admissible calls under one superblock that leave
the same files leave the same room. -/
theorem fsInfo_of_store {fs₀ fs₀' : File} (hw : WellFormed sb fs₀) (hw' : WellFormed sb fs₀')
    {calls calls' : List (Call × Bool)} (h : Run sb fs₀ calls fs) (h' : Run sb fs₀' calls' fs')
    (hsame : replay (storeOf sb fs₀.bytes) (events calls) =
      replay (storeOf sb fs₀'.bytes) (events calls')) :
    ∃ info info', fsInfo fs = .ok info ∧ fsInfo fs' = .ok info' ∧
      info.inodes = info'.inodes ∧ info.datablocks = info'.datablocks := by
  obtain ⟨hwf, hstore⟩ := run_store hw h
  obtain ⟨hwf', hstore'⟩ := run_store hw' h'
  have hstores : storeOf sb fs.bytes = storeOf sb fs'.bytes := by rw [hstore, hstore', hsame]
  obtain ⟨hnodup, hlines⟩ := lines_store hwf
  obtain ⟨hnodup', hlines'⟩ := lines_store hwf'
  have hperm : ((lines sb fs.bytes).map fun l => (l.name, l.size)).Perm
      ((lines sb fs'.bytes).map fun l => (l.name, l.size)) := by
    have hpairs : ∀ {l : List Listed}, (l.map Listed.name).Nodup →
        (l.map fun l => (l.name, l.size)).Nodup := by
      intro l hl
      apply List.Nodup.of_map Prod.fst
      rw [List.map_map]
      exact hl
    rw [List.perm_ext_iff_of_nodup (hpairs hnodup) (hpairs hnodup')]
    rintro ⟨name, size⟩
    simp only [List.mem_map, Prod.mk.injEq]
    rw [hlines, hlines', hstores]
  have hlength := hperm.length_eq
  rw [List.length_map, List.length_map] at hlength
  have hsum := (hperm.map fun l => demand sb l.2).sum_eq
  rw [List.map_map, List.map_map] at hsum
  refine ⟨_, _, fsInfo_eq hwf.toConsistent, fsInfo_eq hwf'.toConsistent, ?_, ?_⟩
  · rw [lines, lines, List.length_map, List.length_map] at hlength
    rw [heldCount_inodeBit hwf.toConsistent, heldCount_inodeBit hwf'.toConsistent, hlength]
  · rw [lines, lines, List.map_map, List.map_map] at hsum
    rw [heldCount_dataBit hwf, heldCount_dataBit hwf']
    exact congrArg (fun used => Usage.mk (1 + used) sb.datablockCount) hsum

theorem smallFileImage_deleted : ∃ fs, Run smallSuperblock (emptyImage smallSuperblock)
    [(.add (nameOf 98) smallContents, true), (.delete (nameOf 98), true)] fs := by
  have hw := (run_store smallImage_wellFormed smallFileImage_run).1
  obtain ⟨r, hok, hexact, -⟩ := deleteFile_of_harmless hw.toConsistent smallFileImage_found
    (fun _ => 0) smallFileImage_harmless
  refine ⟨r.fs, Run.step (fun _ => 0) smallFileImage_run (fun i hi => ?_) ?_⟩
  · rw [smallFileImage_found] at hi
    cases hi
    exact smallFileImage_harmless
  · rw [Call.exec, hok, ok_bind, hexact.outcome]
    rfl

theorem fsInfo_of_store_deleted : ∃ fs info info',
    Run smallSuperblock (emptyImage smallSuperblock)
      [(.add (nameOf 98) smallContents, true), (.delete (nameOf 98), true)] fs ∧
    fsInfo fs = .ok info ∧ fsInfo (emptyImage smallSuperblock) = .ok info' ∧
    info.inodes = info'.inodes ∧ info.datablocks = info'.datablocks := by
  obtain ⟨fs, hrun⟩ := smallFileImage_deleted
  have hsame : replay (storeOf smallSuperblock (emptyImage smallSuperblock).bytes)
      (events [(.add (nameOf 98) smallContents, true), (.delete (nameOf 98), true)]) =
      replay (storeOf smallSuperblock (emptyImage smallSuperblock).bytes) (events []) := by
    have hnone : storeOf smallSuperblock (emptyImage smallSuperblock).bytes (cut 31 (nameOf 98)) =
        none := by decide +kernel
    have hevents : events [(.add (nameOf 98) smallContents, true), (.delete (nameOf 98), true)] =
        [.put (cut 31 (nameOf 98)) smallContents, .erase (cut 31 (nameOf 98))] := by
      simp [events, Call.event]
    rw [hevents]
    refine (Function.update_idem ..).trans ?_
    exact Function.update_eq_self_iff.mpr hnone.symm
  obtain ⟨info, info', hinfo, hinfo', hsame⟩ :=
    fsInfo_of_store smallImage_wellFormed smallImage_wellFormed hrun Run.start hsame
  exact ⟨fs, info, info', hrun, hinfo, hinfo', hsame⟩

end Reports

end RathalOS.ImageReports
