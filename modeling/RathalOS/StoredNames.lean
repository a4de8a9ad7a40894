import RathalOS.AddedFiles

/-!
Names stored by add_file and found by fs_get_file_inode. Both see the first 31 characters
of a name: a file is added exactly if no other has them, and is then found under every
name that has them.
-/
namespace RathalOS.StoredNames

open ByteMemory ByteFile Blocks Bitmaps CStrings Superblocks Inodes FileAccess Images AddFile
open Reservations Allocation AddOutcomes AddedFiles EmptyImages

/-- An inode is zero or has the number of its slot, and no two files share the first 31
characters of their names. -/
structure ConsistentTable (sb : Superblock) (m : Memory) : Prop where
  number : ∀ i < sb.inodeCount,
    (inodeAt sb m i).number = 0 ∧ inodeAt sb m i = Inode.zero ∨ (inodeAt sb m i).number.toNat = i
  names : NamesDistinct sb m

/-- An image with such a table, whose bitmap has a set bit for slot 0 and for every slot
in use. -/
structure NamedImage (sb : Superblock) (fs : File) : Prop extends Accessible sb fs where
  table : ConsistentTable sb fs.bytes
  slotZero : inodeBit sb fs.bytes 0 = true

/-- The file in slot i is new, and has the name. -/
structure Named (sb : Superblock) (m : Memory) (filename : Memory) (i : ℕ) (m' : Memory) :
    Prop where
  slot_lt : i < sb.inodeCount
  free : ¬ Live sb m i
  number : (inodeAt sb m' i).number.toNat = i
  live : Live sb m' i
  terminated : (inodeAt sb m' i).name 31 = 0
  name : (inodeAt sb m' i).shownName = cut 31 filename
  others : ∀ j < sb.inodeCount, j ≠ i → inodeAt sb m' j = inodeAt sb m j

section Naming

variable {sb : Superblock} {m m' filename : Memory} {i : ℕ}

theorem Named.live_of_ne (h : Named sb m filename i m') {j : ℕ} (hj : Live sb m' j)
    (hji : j ≠ i) : Live sb m j := by
  refine ⟨hj.1, ?_⟩
  rw [← h.others j hj.1 hji]
  exact hj.2

theorem Named.live_of_old (h : Named sb m filename i m') {j : ℕ} (hj : Live sb m j) :
    j ≠ i ∧ Live sb m' j ∧ inodeAt sb m' j = inodeAt sb m j := by
  have hji : j ≠ i := fun heq => h.free (heq ▸ hj)
  have hsame := h.others j hj.1 hji
  exact ⟨hji, ⟨hj.1, by rw [hsame]; exact hj.2⟩, hsame⟩

/-- A name that was not found keeps names distinct. -/
theorem Named.names (h : Named sb m filename i m')
    (hfresh : lookup filename (inodeTableOf sb m) = none) (hn : NamesDistinct sb m) :
    NamesDistinct sb m' := by
  refine hn.setSlot h.others fun _ j hj => ?_
  rw [h.name]
  exact lookup_none_iff.mp hfresh j hj

theorem Named.table (h : Named sb m filename i m')
    (hfresh : lookup filename (inodeTableOf sb m) = none) (ht : ConsistentTable sb m) :
    ConsistentTable sb m' := by
  refine ⟨fun j hj => ?_, h.names hfresh ht.names⟩
  by_cases hji : j = i
  · rw [hji]
    exact .inr h.number
  · rw [h.others j hj hji]
    exact ht.number j hj

/-- The new file is found under the names that agree with its own, and every other name
leads where it led. -/
theorem Named.lookup (h : Named sb m filename i m')
    (hfresh : lookup filename (inodeTableOf sb m) = none) (hn : NamesDistinct sb m)
    (t : Memory) : lookup t (inodeTableOf sb m') =
      if cut 31 t = cut 31 filename then some i else lookup t (inodeTableOf sb m) := by
  have hn' := h.names hfresh hn
  by_cases hsame : cut 31 t = cut 31 filename
  · rw [if_pos hsame]
    exact lookup_of_live hn' h.live (h.name.trans hsame.symm)
  · rw [if_neg hsame]
    cases hfound : FileAccess.lookup t (inodeTableOf sb m) with
    | none =>
      rw [lookup_none_iff]
      intro j hj
      by_cases hji : j = i
      · rw [hji, h.name]
        exact Ne.symm hsame
      · rw [h.others j hj.1 hji]
        exact lookup_none_iff.mp hfound j (h.live_of_ne hj hji)
    | some j =>
      obtain ⟨hj, hname⟩ := lookup_live hfound
      obtain ⟨-, hlive, hinode⟩ := h.live_of_old hj
      exact lookup_of_live hn' hlive (by rw [hinode, hname])

end Naming

section Adding

variable {stale : Memory} {sb : Superblock} {fs f : File} {n : ℕ}

/-- What a successful call stored. -/
theorem named_of_stored (h : NamedImage sb fs) {filename : Memory} {data tables : List ℕ}
    {s : CopyState} {i : ℕ} {ib : Bitmap} {itab : InodeTable} {fs' : File}
    (hi : i < sb.inodeCount) (hclear : inodeBit sb fs.bytes i = false)
    (hstored : Stored sb fs filename n i data tables s ib itab fs') :
    Named sb fs.bytes filename i fs'.bytes := by
  have hcount := h.inodeCount_le
  have hinode := hstored.inodeAt_self hi
  have hpos : i ≠ 0 := by
    rintro rfl
    rw [h.slotZero] at hclear
    cases hclear
  have hnumber : (inodeAt sb fs'.bytes i).number.toNat = i := by
    rw [hinode]
    change (BitVec.ofInt 16 (i : ℤ)).toNat = i
    rw [BitVec.ofInt_natCast, BitVec.toNat_ofNat]
    omega
  constructor
  case slot_lt => exact hi
  case free =>
    intro hlive
    exact hlive.2 (by rw [h.clear_zero i hi hclear]; rfl)
  case number => exact hnumber
  case live =>
    refine ⟨hi, fun hzero => hpos ?_⟩
    rw [← hnumber, hzero]
    rfl
  case terminated =>
    rw [hinode]
    change strncpy (Inode.namePtr _) filename 31 31 = 0
    rw [strncpy_apply, if_neg (by decide), Inode.namePtr_apply _ (by decide)]
    rfl
  case name => rw [hinode, newInode_shownName]
  case others =>
    intro j hj hji
    exact inodeAt_congr fun k hk => hstored.slot hj hji hk

/-- A call that does not store a file leaves the inodes as they are. -/
theorem ConsistentTable.scribbled {fs' : File} (ht : ConsistentTable sb fs.bytes)
    (hr : Regions sb) (h : Scribbled sb fs.bytes fs'.bytes) : ConsistentTable sb fs'.bytes := by
  have hlive : ∀ j, Live sb fs'.bytes j → Live sb fs.bytes j := by
    intro j hj
    refine ⟨hj.1, ?_⟩
    rw [← h.inodeAt hr hj.1]
    exact hj.2
  refine ⟨fun j hj => ?_, fun j k hj hk hname => ?_⟩
  · rw [h.inodeAt hr hj]
    exact ht.number j hj
  · rw [h.inodeAt hr hj.1, h.inodeAt hr hk.1] at hname
    exact ht.names j k (hlive j hj) (hlive k hk) hname

/-- At most one inode carries a name. -/
theorem ConsistentTable.matches_unique {m : Memory} (ht : ConsistentTable sb m) {t : Memory}
    {i j : ℕ} (hi : i < sb.inodeCount) (hj : j < sb.inodeCount)
    (hmatch : matchesName t (inodeAt sb m i) = true)
    (hmatch' : matchesName t (inodeAt sb m j) = true) : i = j := by
  obtain ⟨hlive, hname⟩ := (matchesName_iff t _).mp hmatch
  obtain ⟨hlive', hname'⟩ := (matchesName_iff t _).mp hmatch'
  exact ht.names i j ⟨hi, hlive⟩ ⟨hj, hlive'⟩ (hname.trans hname'.symm)

end Adding

/-- A call of add_file with a name ended with an outcome. -/
structure StoresName (sb : Superblock) (m : Memory) (filename : Memory) (outcome : AddOutcome)
    (m' : Memory) : Prop where
  refused_iff : outcome = .alreadyExists ↔
    ∃ i, Live sb m i ∧ (inodeAt sb m i).shownName = cut 31 filename
  added : outcome = .added → ∃ i, Named sb m filename i m' ∧
    ∀ t, fsGetFileInode t (inodeTableOf sb m') =
      if cut 31 t = cut 31 filename then .ok (some i) else fsGetFileInode t (inodeTableOf sb m)
  table : ConsistentTable sb m'
  unique : ∀ t, ∀ i < sb.inodeCount, ∀ j < sb.inodeCount,
    matchesName t (inodeAt sb m' i) = true → matchesName t (inodeAt sb m' j) = true → i = j

/-- The names that add_file stores are those under which fs_get_file_inode finds the file. -/
theorem addFile_storesName {sb : Superblock} {fs : File} (h : NamedImage sb fs)
    (stale filename : Memory) (f : File) {n : ℕ} (hn : n < 2 ^ 32) :
    ∃ outcome fs', addFile stale f filename n fs = .ok (outcome, fs') ∧
      StoresName sb fs.bytes filename outcome fs'.bytes := by
  have hexists : lookup filename (inodeTableOf sb fs.bytes) ≠ none ↔
      ∃ i, Live sb fs.bytes i ∧ (inodeAt sb fs.bytes i).shownName = cut 31 filename := by
    rw [Ne, lookup_none_iff]
    constructor
    · intro hnot
      by_contra hnone
      exact hnot fun i hi hname => hnone ⟨i, hi, hname⟩
    · rintro ⟨i, hi, hname⟩ hall
      exact hall i hi hname
  -- the calls that store nothing
  have hkept : ∀ outcome (fs' : File), outcome ≠ .added →
      (outcome = .alreadyExists ↔ lookup filename (inodeTableOf sb fs.bytes) ≠ none) →
      Scribbled sb fs.bytes fs'.bytes → StoresName sb fs.bytes filename outcome fs'.bytes := by
    intro outcome fs' hnot hrefused hscribbled
    have ht := h.table.scribbled h.regions hscribbled
    exact ⟨hrefused.trans hexists, fun hadded => absurd hadded hnot, ht,
      fun t i hi j hj => ht.matches_unique hi hj⟩
  rcases addFileLog_spec h.toAccessible stale filename f hn with ⟨hfound, p, hrun⟩ |
    ⟨hfresh, -, p, hrun⟩ | ⟨hfresh, i, hi, hclear, data, tables, log, s, hcopied, hend⟩
  · exact ⟨_, _, addFile_of_log hrun,
      hkept _ _ (by decide) (iff_of_true rfl hfound) (Scribbled.refl _ _)⟩
  · exact ⟨_, _, addFile_of_log hrun,
      hkept _ _ (by decide) (iff_of_false (by decide) fun hne => hne hfresh) (Scribbled.refl _ _)⟩
  · rcases hend with ⟨-, hrun⟩ | ⟨-, ib, itab, fs', hrun, hstored⟩
    · exact ⟨_, _, addFile_of_log hrun,
        hkept _ _ (by decide) (iff_of_false (by decide) fun hne => hne hfresh)
          (scribbled_of_progress hcopied.progress)⟩
    · have hnamed := named_of_stored h hi hclear hstored
      have ht := hnamed.table hfresh h.table
      refine ⟨_, _, addFile_of_log hrun, ⟨?_, fun _ => ⟨i, hnamed, fun t => ?_⟩, ht,
        fun t i hi j hj => ht.matches_unique hi hj⟩⟩
      · rw [← hexists]
        exact iff_of_false (by decide) fun hne => hne hfresh
      · rw [fsGetFileInode_of_image, fsGetFileInode_of_image,
          hnamed.lookup hfresh h.table.names t]
        split <;> rfl

/-- Well-formed images are such images. -/
theorem NamedImage.of_wellFormed {sb : Superblock} {fs : File} (hw : WellFormed sb fs) :
    NamedImage sb fs := by
  have hc := hw.toConsistent
  refine { hc.accessible with table := ⟨fun i hi => ?_, hw.names⟩, slotZero := ?slotZero }
  · rcases hc.number i hi with hzero | hself
    · exact .inl ⟨hzero, hc.free_zero i hi hzero⟩
    · exact .inr hself
  case slotZero => exact (hc.inodeBit_iff 0 hc.layout.inodeCount_pos).mpr (.inl rfl)

/-- A name of n equal characters. -/
def longName (b : Byte) (n : ℕ) : Memory := fun k => if k < n then b else 0

/-- A file with a name of 40 characters is added beside another one, and found under 31. -/
theorem addFile_storesName_long : ∃ fs',
    addFile (fun _ => 0) (zeroFile 100) (longName 98 40) 100 largeImage = .ok (.added, fs') ∧
      StoresName smallSuperblock largeImage.bytes (longName 98 40) .added fs'.bytes ∧
      ∃ i, fsGetFileInode (longName 98 31) (inodeTableOf smallSuperblock fs'.bytes) =
        .ok (some i) := by
  have hadded : (addFile (fun _ => 0) (zeroFile 100) (longName 98 40) 100 largeImage).map
      Prod.fst = .ok .added := by
    decide +kernel
  obtain ⟨outcome, fs', hadd, hstores⟩ := addFile_storesName
    (NamedImage.of_wellFormed largeImage_wellFormed) (fun _ => 0) (longName 98 40) (zeroFile 100)
    (by decide : 100 < 2 ^ 32)
  rw [hadd] at hadded
  cases hadded
  obtain ⟨i, -, hfound⟩ := hstores.added rfl
  exact ⟨fs', hadd, hstores, i, by rw [hfound, if_pos (by decide)]⟩

end RathalOS.StoredNames
