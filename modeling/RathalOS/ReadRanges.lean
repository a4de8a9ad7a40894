import RathalOS.AddedFiles
import RathalOS.OffsetMapping

/-!
Ranges that fs_read, tools/fs.c, cannot read. It never looks at whether the mapping
returned -1, and adds it to a block number: past the reach of the pointers it copies from
the block before the data region and succeeds. Here fs_read also returns the blocks it
copies from.
-/
namespace RathalOS.ReadRanges

open ByteMemory ByteFile Blocks Bitmaps Superblocks Inodes FileAccess Images AddedFiles
open EmptyImages OffsetMapping

/-- The loop of fs_read, with the blocks of the image it copied from. -/
def readLoopLog (stale : Memory) (inode : Inode) (sb : Superblock)
    (bytesLeft offset destOffset : ℕ) (dest buf : Memory) (fs : File) :
    Except Fault (Memory × File × List ℕ) :=
  if _hleft : 0 < bytesLeft then do
    let (block, fs) ← fsOffsetToBlock stale offset inode sb fs
    let (buf, fs) ← blockRead sb.blockSize (uintOfInt (sb.datablocksStart + block)) buf fs
    let startOffset := offset % sb.blockSize
    let partialCount := sb.blockSize - startOffset
    let n := if partialCount < bytesLeft then partialCount else bytesLeft
    if _hn : 0 < n then do
      let r ← readLoopLog stale inode sb (bytesLeft - n) (uint (offset + n)) (destOffset + n)
        (store dest destOffset n (advance buf startOffset)) buf fs
      .ok (r.1, r.2.1, uintOfInt (sb.datablocksStart + block) :: r.2.2)
    else .error .undefined
  else .ok (dest, fs, [])
termination_by bytesLeft
decreasing_by exact Nat.sub_lt _hleft _hn

/-- fs_read, with the blocks of the image it copied from. -/
def fsReadLog (stale : Memory) (filename : Memory) (offset count : ℕ) (dest : Memory) (fs : File) :
    Except Fault (ReadOutcome × Memory × File × List ℕ) := do
  let (sb, fs) ← superblockRead fs
  let bs := sb.blockSize
  let (_inodeBitmap, fs) ← bitmapRead sb.inodeBitmapStart sb.inodeCount bs fs
  let (_datablockBitmap, fs) ← bitmapRead sb.datablockBitmapStart sb.datablockCount bs fs
  let (itab, fs) ← inodeTableRead sb.inodeCount sb.inodeStart bs fs
  let found ← fsGetFileInode filename itab
  match found with
  | none => .ok (.notFound, dest, fs, [])
  | some i => do
    let inode ← inodeGet itab i
    let (dest, fs, blocks) ← readLoopLog stale inode sb (intOfUint count).toNat offset 0 dest
      stale fs
    .ok (.done, dest, fs, blocks)

section Erasure

variable (stale : Memory)

theorem readLoopLog_erase (inode : Inode) (sb : Superblock) (bytesLeft : ℕ) :
    ∀ (offset destOffset : ℕ) (dest buf : Memory) (fs : File),
      (readLoopLog stale inode sb bytesLeft offset destOffset dest buf fs).map
        (fun r => (r.1, r.2.1)) =
      readLoop stale inode sb bytesLeft offset destOffset dest buf fs := by
  induction bytesLeft using Nat.strong_induction_on with
  | h bytesLeft ih =>
    intro offset destOffset dest buf fs
    rw [readLoopLog, readLoop]
    split
    · rename_i hleft
      refine map_bind_eq fun r₁ => map_bind_eq fun r₂ => ?_
      dsimp only
      generalize hn : (if sb.blockSize - offset % sb.blockSize < bytesLeft then
        sb.blockSize - offset % sb.blockSize else bytesLeft) = n
      split
      · rename_i hpos
        rw [← ih (bytesLeft - n) (Nat.sub_lt hleft hpos)]
        generalize readLoopLog stale inode sb (bytesLeft - n) _ _ _ _ _ = rest
        cases rest <;> rfl
      · rfl
    · rfl

/-- Without the blocks, `fsReadLog` is fs_read. -/
theorem fsReadLog_erase (filename : Memory) (offset count : ℕ) (dest : Memory) (fs : File) :
    (fsReadLog stale filename offset count dest fs).map (fun r => (r.1, r.2.1, r.2.2.1)) =
      fsRead stale filename offset count dest fs := by
  refine map_bind_eq fun r₁ => map_bind_eq fun r₂ => map_bind_eq fun r₃ => map_bind_eq fun r₄ =>
    map_bind_eq fun found => ?_
  cases found with
  | none => rfl
  | some i =>
    refine map_bind_eq fun inode => ?_
    exact map_bind_of_map (readLoopLog_erase stale inode r₁.1 _ _ _ _ _ _) fun r => rfl

end Erasure

/-- An image with disjoint regions in which the pointers of every file name data blocks. -/
structure SoundImage (sb : Superblock) (fs : File) : Prop where
  superblock : Superblock.ofMemory fs.bytes = sb
  valid : superblockValid fs.bytes
  regions : Regions sb
  covers : sb.blockSize * (sb.datablocksStart + sb.datablockCount) ≤ fs.size
  pointers : ∀ i, Live sb fs.bytes i → ∀ place,
    pointer sb fs.bytes (inodeAt sb fs.bytes i) place < sb.datablockCount

/-- A block of the data region. -/
def InRegion (sb : Superblock) (block : ℕ) : Prop :=
  sb.datablocksStart ≤ block ∧ block < sb.datablocksStart + sb.datablockCount

/-- A call of fs_read on the file with this inode returns, fails if the mapping of some
position of the range is -1, and copies from the data region only. -/
def ReportsUnreadable (sb : Superblock) (inode : Inode) (stale filename : Memory)
    (offset count : ℕ) (dest : Memory) (fs : File) : Prop :=
  ∃ outcome dest' fs' blocks,
    fsReadLog stale filename offset count dest fs = .ok (outcome, dest', fs', blocks) ∧
    ((∃ x, offset ≤ x ∧ x < offset + count ∧ mapped stale x inode sb fs = .ok (-1)) →
      outcome ≠ .done) ∧
    ∀ block ∈ blocks, InRegion sb block

/-- Under a null indirect pointer the data block 0 is read as a table: the entry for the
k-th block of the file names a data block. -/
def HoleInRegion (sb : Superblock) (m : Memory) (inode : Inode) (k : ℕ) : Prop :=
  4 ≤ k → indirectAt inode ((k - 4) / (sb.blockSize / 2)) = 0 →
    (read16 (blockData sb m 0) (2 * ((k - 4) % (sb.blockSize / 2)))).toNat < sb.datablockCount

/-- The k-th block of the file is one of the data region. -/
def Readable (sb : Superblock) (m : Memory) (inode : Inode) (k : ℕ) : Prop :=
  k < 4 + 9 * (sb.blockSize / 2) ∧ mappedBlock sb m inode k < sb.datablockCount

section Ranges

variable {sb : Superblock} {fs : File} {i : ℕ}

theorem readable_iff (h : SoundImage sb fs) (hi : Live sb fs.bytes i) {k : ℕ} :
    Readable sb fs.bytes (inodeAt sb fs.bytes i) k ↔ k < 4 + 9 * (sb.blockSize / 2) ∧
      HoleInRegion sb fs.bytes (inodeAt sb fs.bytes i) k := by
  have hbounds := h.regions.blockSize_bounds
  refine and_congr_right fun _ => ?_
  by_cases hhole : 4 ≤ k ∧ indirectAt (inodeAt sb fs.bytes i) ((k - 4) / (sb.blockSize / 2)) = 0
  · rw [mappedBlock, if_neg (by omega), hhole.2]
    exact ⟨fun hlt _ _ => hlt, fun hlt => hlt hhole.1 hhole.2⟩
  · refine iff_of_true ?_ fun hpast hzero => absurd ⟨hpast, hzero⟩ hhole
    rw [mappedBlock_eq_fileBlock (by omega) fun hpast hzero => hhole ⟨hpast, hzero⟩,
      fileBlock_eq_pointer]
    exact h.pointers i hi _

theorem row_lt_iff {x : ℕ} (hbs : 0 < sb.blockSize) :
    x / sb.blockSize < 4 + 9 * (sb.blockSize / 2) ↔ x < reach sb.blockSize :=
  Nat.div_lt_iff_lt_mul hbs

/-- How many bytes an iteration copies. -/
def chunk (sb : Superblock) (left x : ℕ) : ℕ :=
  if sb.blockSize - x % sb.blockSize < left then sb.blockSize - x % sb.blockSize else left

theorem chunk_pos (hbs : 0 < sb.blockSize) {left x : ℕ} (hleft : 0 < left) :
    0 < chunk sb left x := by
  have hmod : x % sb.blockSize < sb.blockSize := Nat.mod_lt _ hbs
  unfold chunk
  split <;> omega

theorem chunk_le (sb : Superblock) (left x : ℕ) :
    chunk sb left x ≤ left ∧ x % sb.blockSize + chunk sb left x ≤ x % sb.blockSize +
      (sb.blockSize - x % sb.blockSize) := by
  unfold chunk
  split <;> omega

/-- All positions of a chunk are in the block of the first. -/
theorem chunk_block (hbs : 0 < sb.blockSize) {left x y : ℕ} (hy : x ≤ y)
    (hlt : y < x + chunk sb left x) : y / sb.blockSize = x / sb.blockSize := by
  have hmod : x % sb.blockSize < sb.blockSize := Nat.mod_lt _ hbs
  have hdiv := Nat.div_add_mod x sb.blockSize
  have hle := (chunk_le sb left x).2
  rw [div_eq_iff_mem_block hbs]
  omega

theorem uint_mapped (h : SoundImage sb fs) (inode : Inode) (k : ℕ) :
    uintOfInt (sb.datablocksStart + (mappedBlock sb fs.bytes inode k : ℤ)) =
        sb.datablocksStart + mappedBlock sb fs.bytes inode k := by
  have hbounds := h.regions.blockSize_bounds
  have hlast := h.regions.data_index h.regions.datablockCount_pos
  have hmapped := mappedBlock_lt sb fs.bytes inode k
  have hwithin := h.regions.within
  have hstart := Nat.mul_le_mul_left (sb.datablocksStart + sb.datablockCount) hbounds.1
  rw [← Nat.cast_add]
  exact uintOfInt_natCast (by omega)

/-- One iteration, with the number of bytes it copies. -/
theorem readLoopLog_pos {stale : Memory} {inode : Inode} {left x o : ℕ} {dest buf : Memory}
    (hbs : 0 < sb.blockSize) (hleft : 0 < left) :
    readLoopLog stale inode sb left x o dest buf fs = (do
      let a ← fsOffsetToBlock stale x inode sb fs
      let b ← blockRead sb.blockSize (uintOfInt (sb.datablocksStart + a.1)) buf a.2
      let r ← readLoopLog stale inode sb (left - chunk sb left x) (uint (x + chunk sb left x))
        (o + chunk sb left x) (store dest o (chunk sb left x) (advance b.1 (x % sb.blockSize)))
        b.1 b.2
      .ok (r.1, r.2.1, uintOfInt (sb.datablocksStart + a.1) :: r.2.2)) := by
  rw [readLoopLog, dif_pos hleft]
  exact bind_congr fun a => bind_congr fun b => dif_pos (chunk_pos hbs hleft)

/-- A loop that copied from the data region only began at a readable block. -/
theorem readable_of_region (h : SoundImage sb fs) (hi : Live sb fs.bytes i) {stale : Memory}
    {left x o p : ℕ} {dest buf : Memory} {r : Memory × File × List ℕ} (hleft : 0 < left)
    (hok : readLoopLog stale (inodeAt sb fs.bytes i) sb left x o dest buf (fs.movedTo p) = .ok r)
    (hregion : ∀ block ∈ r.2.2, InRegion sb block) :
    Readable sb fs.bytes (inodeAt sb fs.bytes i) (x / sb.blockSize) := by
  have hbounds := h.regions.blockSize_bounds
  have hstart := h.regions.datablocksStart_pos
  have hindex := h.regions.data_index h.regions.datablockCount_pos
  rw [readLoopLog_pos (by omega) hleft] at hok
  obtain ⟨⟨block, fs₁⟩, hmap, hok⟩ := bind_eq_ok hok
  obtain ⟨⟨buf₁, fs₂⟩, -, hok⟩ := bind_eq_ok hok
  obtain ⟨rest, -, hr⟩ := bind_eq_ok hok
  cases hr
  have hhead : InRegion sb (uintOfInt (sb.datablocksStart + block)) :=
    hregion _ List.mem_cons_self
  rcases Nat.lt_trichotomy x (reach sb.blockSize) with hx | hx | hx
  · obtain ⟨p', hmapped⟩ := fsOffsetToBlock_mapped h.regions h.covers
      (fun t => h.pointers i hi (.indirect t)) hx stale p
    rw [hmapped] at hmap
    cases hmap
    rw [uint_mapped h] at hhead
    exact ⟨(row_lt_iff (by omega)).mpr hx, Nat.lt_of_add_lt_add_left hhead.2⟩
  · rw [hx, fsOffsetToBlock_reach stale _ (by omega)] at hmap
    cases hmap
  · rw [fsOffsetToBlock_beyond stale _ hx] at hmap
    cases hmap
    have hbefore : uintOfInt (sb.datablocksStart + (-1)) = sb.datablocksStart - 1 := by
      unfold uintOfInt
      omega
    rw [hbefore] at hhead
    have hlow := hhead.1
    omega

/-- An iteration at a readable block copies from it and goes on. -/
theorem readLoopLog_step (h : SoundImage sb fs) (hi : Live sb fs.bytes i) (stale : Memory)
    {left x : ℕ} (o p : ℕ) (dest buf : Memory) (hleft : 0 < left) (hsum : x + left < 2 ^ 32)
    (hreadable : Readable sb fs.bytes (inodeAt sb fs.bytes i) (x / sb.blockSize)) :
    ∃ block dest' buf' p', InRegion sb block ∧
      readLoopLog stale (inodeAt sb fs.bytes i) sb left x o dest buf (fs.movedTo p) = (do
        let r ← readLoopLog stale (inodeAt sb fs.bytes i) sb (left - chunk sb left x)
          (x + chunk sb left x) (o + chunk sb left x) dest' buf' (fs.movedTo p')
        .ok (r.1, r.2.1, block :: r.2.2)) := by
  have hbounds := h.regions.blockSize_bounds
  have hbs : 0 < sb.blockSize := by omega
  have hx := (row_lt_iff hbs).mp hreadable.1
  have hle := (chunk_le sb left x).1
  obtain ⟨p₁, hmapped⟩ := fsOffsetToBlock_mapped h.regions h.covers
    (fun t => h.pointers i hi (.indirect t)) hx stale p
  obtain ⟨p₂, hread⟩ := h.regions.blockRead_data h.covers hreadable.2 buf p₁
  refine ⟨sb.datablocksStart + mappedBlock sb fs.bytes (inodeAt sb fs.bytes i)
    (x / sb.blockSize), ?dest, ?buf, p₂, ?region, ?run⟩
  case region => exact ⟨Nat.le_add_right _ _, Nat.add_lt_add_left hreadable.2 _⟩
  case run =>
    rw [readLoopLog_pos hbs hleft]
    refine (bind_of_ok hmapped _).trans ?_
    rw [uint_mapped h]
    refine (bind_of_ok hread _).trans ?_
    rw [uint_of_lt (by omega)]

/-- The loop copies from the data region only, and returns, exactly if every position of
the range is in a readable block. -/
theorem readLoopLog_region_iff (h : SoundImage sb fs) (hi : Live sb fs.bytes i)
    (stale : Memory) (left : ℕ) :
    ∀ (x o p : ℕ) (dest buf : Memory), x + left < 2 ^ 32 →
      ((∃ r, readLoopLog stale (inodeAt sb fs.bytes i) sb left x o dest buf (fs.movedTo p) =
          .ok r ∧ ∀ block ∈ r.2.2, InRegion sb block) ↔
        ∀ y, x ≤ y → y < x + left →
          Readable sb fs.bytes (inodeAt sb fs.bytes i) (y / sb.blockSize)) := by
  have hbounds := h.regions.blockSize_bounds
  have hbs : 0 < sb.blockSize := by omega
  induction left using Nat.strong_induction_on with
  | h left ih =>
    intro x o p dest buf hsum
    rcases Nat.eq_zero_or_pos left with hzero | hleft
    · subst hzero
      refine iff_of_true ⟨(dest, fs.movedTo p, []), ?_, nofun⟩ fun y hlow hhigh => by omega
      rw [readLoopLog, dif_neg (Nat.lt_irrefl 0)]
    · by_cases hreadable : Readable sb fs.bytes (inodeAt sb fs.bytes i) (x / sb.blockSize)
      · obtain ⟨block, dest', buf', p', hblock, hstep⟩ :=
          readLoopLog_step h hi stale o p dest buf hleft hsum hreadable
        have hpos := chunk_pos hbs (x := x) hleft
        have hle := (chunk_le sb left x).1
        have hrest := ih (left - chunk sb left x) (by omega) (x + chunk sb left x)
          (o + chunk sb left x) p' dest' buf' (by omega)
        rw [hstep]
        constructor
        · intro hrun y hlow hhigh
          obtain ⟨r, hok, hregion⟩ := hrun
          obtain ⟨r', hok', hr⟩ := bind_eq_ok hok
          cases hr
          by_cases hin : y < x + chunk sb left x
          · rw [chunk_block hbs hlow hin]
            exact hreadable
          · exact hrest.mp ⟨r', hok', fun b hb => hregion b (List.mem_cons_of_mem _ hb)⟩ y
              (by omega) (by omega)
        · intro hall
          obtain ⟨r', hok', hregion⟩ := hrest.mpr fun y hlow hhigh =>
            hall y (by omega) (by omega)
          refine ⟨_, bind_of_ok hok' _, ?_⟩
          exact List.forall_mem_cons.mpr ⟨hblock, hregion⟩
      · refine iff_of_false (fun hrun => hreadable ?_) fun hall =>
          hreadable (hall x le_rfl (by omega))
        obtain ⟨r, hok, hregion⟩ := hrun
        exact readable_of_region h hi hleft hok hregion

/-- On a file that exists fs_read is its loop. -/
theorem fsReadLog_found (h : SoundImage sb fs) {filename : Memory}
    (hfound : lookup filename (inodeTableOf sb fs.bytes) = some i) (stale : Memory) (offset : ℕ)
    {count : ℕ} (dest : Memory) (hcount : count < 2 ^ 31) :
    ∃ p, fsReadLog stale filename offset count dest fs = (do
      let r ← readLoopLog stale (inodeAt sb fs.bytes i) sb count offset 0 dest stale
        (fs.movedTo p)
      .ok (.done, r)) := by
  obtain ⟨hi, -⟩ := lookup_live hfound
  obtain ⟨p₁, p₂, p₃, p₄, hsb, hib, hdb, hit⟩ := h.regions.reads h.superblock h.valid
  have hget : inodeGet (inodeTableOf sb fs.bytes) i = .ok (inodeAt sb fs.bytes i) := by
    rw [inodeGet, if_pos (by exact hi.1), inodeTableOf_inode hi.1]
  refine ⟨p₄, ?_⟩
  simp only [fsReadLog, hsb, ok_bind, hib, hdb, hit, fsGetFileInode_of_image, hfound, hget,
    intOfUint_of_lt hcount, Int.toNat_natCast]

/-- A call of fs_read reports what it cannot read exactly if it could read everything. -/
theorem reportsUnreadable_of_found (h : SoundImage sb fs) {filename : Memory}
    (hfound : lookup filename (inodeTableOf sb fs.bytes) = some i) (stale : Memory)
    {offset count : ℕ} (dest : Memory) (hoffset : offset < 2 ^ 31) (hcount : count < 2 ^ 31) :
    ReportsUnreadable sb (inodeAt sb fs.bytes i) stale filename offset count dest fs ↔
      ∀ x, offset ≤ x → x < offset + count →
        Readable sb fs.bytes (inodeAt sb fs.bytes i) (x / sb.blockSize) := by
  have hbounds := h.regions.blockSize_bounds
  obtain ⟨hi, -⟩ := lookup_live hfound
  obtain ⟨p, hrun⟩ := fsReadLog_found h hfound stale offset dest hcount
  rw [← readLoopLog_region_iff h hi stale count offset 0 p dest stale (by omega)]
  constructor
  · intro hreports
    obtain ⟨outcome, dest', fs', blocks, hok, -, hregion⟩ := hreports
    rw [hrun] at hok
    obtain ⟨r, hloop, hr⟩ := bind_eq_ok hok
    cases hr
    exact ⟨_, hloop, hregion⟩
  · intro hloops
    have hall := (readLoopLog_region_iff h hi stale count offset 0 p dest stale (by omega)).mp
      hloops
    obtain ⟨⟨dest', fs', blocks⟩, hloop, hregion⟩ := hloops
    refine ⟨.done, dest', fs', blocks, hrun.trans (bind_of_ok hloop _), ?_, hregion⟩
    rintro ⟨x, hlow, hhigh, hnone⟩
    obtain ⟨p', hmapped⟩ := fsOffsetToBlock_mapped h.regions h.covers
      (fun t => h.pointers i hi (.indirect t))
      ((row_lt_iff (by omega)).mp (hall x hlow hhigh).1) stale fs.pos
    rw [File.movedTo_self] at hmapped
    rw [mapped, hmapped] at hnone
    have hneg : ((mappedBlock sb fs.bytes (inodeAt sb fs.bytes i) (x / sb.blockSize) : ℕ) : ℤ) =
      -1 := Except.ok.inj hnone
    omega

end Ranges

/-- A call of fs_read on a file that exists reports what it cannot read exactly if the
range ends before the reach of the pointers, and no entry read from the data block 0 leads
out of the data region. -/
theorem reportsUnreadable_iff {sb : Superblock} {fs : File} (h : SoundImage sb fs)
    {filename : Memory} {i : ℕ} (hfound : lookup filename (inodeTableOf sb fs.bytes) = some i)
    (stale : Memory) {offset count : ℕ} (dest : Memory) (hoffset : offset < 2 ^ 31)
    (hcount : count < 2 ^ 31) :
    ReportsUnreadable sb (inodeAt sb fs.bytes i) stale filename offset count dest fs ↔
      ∀ x, offset ≤ x → x < offset + count → x < reach sb.blockSize ∧
        HoleInRegion sb fs.bytes (inodeAt sb fs.bytes i) (x / sb.blockSize) := by
  have hbounds := h.regions.blockSize_bounds
  obtain ⟨hi, -⟩ := lookup_live hfound
  rw [reportsUnreadable_of_found h hfound stale dest hoffset hcount]
  refine forall_congr' fun x => imp_congr_right fun _ => imp_congr_right fun _ => ?_
  rw [readable_iff h hi, row_lt_iff (by omega)]

section Examples

theorem largeImage_sound : SoundImage smallSuperblock largeImage := by
  have hc := largeImage_wellFormed.toConsistent
  exact
    { superblock := hc.superblock
      valid := hc.valid
      regions := hc.layout.regions
      covers := hc.covers
      pointers := fun i hi place => hc.blocks.inRange i place hi }

theorem largeImage_lookup :
    lookup (nameOf 97) (inodeTableOf smallSuperblock largeImage.bytes) = some 1 := by
  decide +kernel

/-- The first bytes of the file. -/
theorem reportsUnreadable_first : ReportsUnreadable smallSuperblock
    (inodeAt smallSuperblock largeImage.bytes 1) (fun _ => 0) (nameOf 97) 0 100 (fun _ => 0)
    largeImage := by
  refine (reportsUnreadable_iff largeImage_sound largeImage_lookup (fun _ => 0) (fun _ => 0)
    (by decide) (by decide)).mpr fun x _ hx => ?_
  have hbs : smallSuperblock.blockSize = 512 := rfl
  have hreach : reach smallSuperblock.blockSize = 1181696 := by decide
  refine ⟨by omega, fun hpast => ?_⟩
  rw [hbs] at hpast
  omega

/-- A byte past the reach of the pointers. -/
theorem reportsUnreadable_far : ¬ ReportsUnreadable smallSuperblock
    (inodeAt smallSuperblock largeImage.bytes 1) (fun _ => 0) (nameOf 97) 1181697 1 (fun _ => 0)
    largeImage := by
  intro h
  have hreadable := (reportsUnreadable_of_found largeImage_sound largeImage_lookup (fun _ => 0)
    (fun _ => 0) (by decide) (by decide)).mp h 1181697 le_rfl (by decide)
  exact absurd hreadable.1 (by decide)

end Examples

end RathalOS.ReadRanges
