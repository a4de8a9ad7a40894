import RathalOS.Cursors
import RathalOS.FileRemoval
import RathalOS.ImageReports

/-!
From the tools to the programs. The image that a run of admissible calls of the tools left is
mounted, and the kernel makes of it what its calls make of it: at each moment the names it
finds, the lengths it reports and the bytes it reads are those of a store, the one the tools
left without the names that were removed since. The bytes are right up to the fifth block of
a file.
-/
namespace RathalOS.ServedFiles

open ByteMemory ByteFile Bitmaps CStrings Superblocks Inodes FileAccess Images AddedFiles
open EmptyImages ImageRuns ImageReports Histories KernelFiles Mounting KernelReads Cursors
open FileRemoval

section Serving

/-- The kernel finds the names of a store and no others, reports the lengths of what is
stored, and opens a file if a descriptor is free; of the file, file_read leaves the first four
blocks in its buffer. -/
structure Serves (disk : Memory) (k : Kernel) (stored : List Byte → Option (List Byte)) : Prop where
  fileExists : ∀ filename, fileExists k filename = .ok (stored (cut 31 filename)).isSome
  absent : ∀ filename, stored (cut 31 filename) = none →
    fileStat k filename = .ok none ∧ fileOpen k filename = .ok (-1, k)
  fileStat : ∀ filename c, stored (cut 31 filename) = some c →
    ∃ slot, fileStat k filename = .ok (some ⟨c.length, slot⟩)
  fileRead : ∀ filename bytes, stored (cut 31 filename) = some bytes →
    (∃ fd, (k.fileDescriptorTab fd).status = 0) →
    ∃ (fd : Fin FILE_DESCRIPTOR_TAB_SIZE) (k' : Kernel),
      fileOpen k filename = .ok ((fd : ℕ), k') ∧
      ∀ stale buf count, count ≤ bytes.length →
        ∃ buf', fileRead k' disk stale (fd : ℕ) buf count = .ok (count, buf') ∧
          ∀ x (h : x < bytes.length), x < count → x < 4 * SECTOR_SIZE → buf' x = bytes[x]

/-- The table of the kernel holds the inodes of an image but for some that are cleared, and
those left are the files of a store. -/
structure Mirrors (sb : Superblock) (m : Memory) (k : Kernel)
    (stored : List Byte → Option (List Byte)) : Prop where
  consistent : TablesConsistent k
  superblock : k.superblock = sb
  slot : ∀ i < k.inodeTable.inodeCount, (k.inodeTable.inode i).number ≠ 0 →
    Live sb m i ∧ k.inodeTable.inode i = inodeAt sb m i
  stored : ∀ name c, stored name = some c ↔ ∃ i < k.inodeTable.inodeCount,
    (k.inodeTable.inode i).number ≠ 0 ∧ (k.inodeTable.inode i).shownName = name ∧
    fileContents sb m (k.inodeTable.inode i) = c

variable {sb : Superblock} {fs : File} {disk : Memory} {k k' : Kernel}
  {stored : List Byte → Option (List Byte)} {filename : Memory} {i : ℕ}

/-- The lookup of a name in the table and in the store. -/
theorem Mirrors.lookup {m : Memory} (h : Mirrors sb m k stored) (filename : Memory) :
    stored (cut 31 filename) = (lookup filename k.inodeTable).map
      fun i => fileContents sb m (k.inodeTable.inode i) := by
  apply Option.ext
  intro c
  rw [h.stored, Option.map_eq_some_iff]
  constructor
  · rintro ⟨i, hi, hlive, hname, hc⟩
    exact ⟨i, (h.consistent.lookup_eq_some_iff filename i).mpr ⟨hi, hlive, hname⟩, hc⟩
  · rintro ⟨i, hfound, hc⟩
    obtain ⟨hi, hlive, hname⟩ := (h.consistent.lookup_eq_some_iff filename i).mp hfound
    exact ⟨i, hi, hlive, hname, hc⟩

theorem length_fileContents (m : Memory) (inode : Inode) :
    (fileContents sb m inode).length = inode.size.toNat := by
  rw [fileContents, List.length_map, List.length_range]

/-- What mirrors an image serves its files. -/
theorem Mirrors.serves (h : Mirrors sb fs.bytes k stored) (hw : WellFormed sb fs)
    (hbs : sb.blockSize = 512) (hdisk : DiskHolds disk fs) : Serves disk k stored := by
  have hlookups := lookups_eq h.consistent.inside
  have hsize : ∀ i, Live sb fs.bytes i → intOfUint (inodeAt sb fs.bytes i).size.toNat =
      (inodeAt sb fs.bytes i).size.toNat := fun i hi =>
    intOfUint_of_lt (size_lt hw.layout (hw.sizes i hi))
  -- a name that is stored is found at an inode of the image
  have hfind : ∀ filename c, stored (cut 31 filename) = some c → ∃ i,
      FileAccess.lookup filename k.inodeTable = some i ∧ Live sb fs.bytes i ∧
      k.inodeTable.inode i = inodeAt sb fs.bytes i ∧
      fileContents sb fs.bytes (inodeAt sb fs.bytes i) = c := by
    intro filename c hc
    rw [h.lookup, Option.map_eq_some_iff] at hc
    obtain ⟨i, hfound, hcontents⟩ := hc
    obtain ⟨hi, hnumber, -⟩ := (h.consistent.lookup_eq_some_iff filename i).mp hfound
    obtain ⟨hlive, hinode⟩ := h.slot i hi hnumber
    exact ⟨i, hfound, hlive, hinode, hinode ▸ hcontents⟩
  have hstat : ∀ filename c, stored (cut 31 filename) = some c →
      ∃ slot, KernelFiles.fileStat k filename = .ok (some ⟨c.length, slot⟩) := by
    intro filename c hc
    obtain ⟨i, hfound, hlive, hinode, hcontents⟩ := hfind filename c hc
    refine ⟨i, ?_⟩
    rw [(hlookups filename).2.2, hfound, Option.map_some, hinode, hsize i hlive, ← hcontents,
      length_fileContents]
  constructor
  case fileExists =>
    intro filename
    rw [(hlookups filename).2.1, h.lookup, Option.isSome_map]
  case absent =>
    intro filename hnone
    have hnot : FileAccess.lookup filename k.inodeTable = none := by
      rw [h.lookup] at hnone
      exact Option.map_eq_none_iff.mp hnone
    obtain ⟨-, hexists, hstat'⟩ := hlookups filename
    rw [hnot] at hexists hstat'
    refine ⟨hstat', ?_⟩
    rw [fileOpen, hexists]
    rfl
  case fileStat => exact hstat
  case fileRead =>
    intro filename c hc hfree
    obtain ⟨i, hfound, hlive, hinode, rfl⟩ := hfind filename c hc
    obtain ⟨slot, hstat'⟩ := hstat filename _ hc
    obtain ⟨fd, slot', hopen⟩ := fileOpen_of_fileStat hstat' hfree
    obtain ⟨j, slot'', slotsRead, -, hfind', hfd, hk'⟩ := fileOpen_eq hopen (by omega)
    obtain ⟨⟨slotsRead', hfind''⟩, -⟩ := hlookups filename
    rw [hfind', hfound] at hfind''
    obtain rfl : slot'' = i := by
      have hpair := Except.ok.inj hfind''
      exact Option.some.inj (congrArg Prod.fst hpair)
    obtain rfl : fd = j := Fin.ext (by omega)
    refine ⟨fd, _, hk' ▸ hopen, fun stale buf count hcount => ?_⟩
    have hat := openAt_setDescriptor fd (findInode_some hfind').2.1
    obtain ⟨buf', hread, hbuf⟩ := fileRead_spec hat.status_ne hat.inode hat.slot_lt disk stale buf
      count
    have hlt := size_lt hw.layout (hw.sizes slot'' hlive)
    rw [length_fileContents] at hcount
    refine ⟨buf', ?_, fun x hx hxcount hxdirect => ?_⟩
    · rw [hread, intOfUint_of_lt (by omega)]
    · obtain ⟨-, hstart⟩ := starts_lt hw.layout
      rw [hbuf x hxcount, setDescriptor_superblock, setDescriptor_inodeTable, h.superblock, hinode,
        intOfUint_of_lt (by omega), kernelByte_direct hw.toConsistent hbs hdisk hlive buf hxdirect]
      simp only [fileContents, List.getElem_map, List.getElem_range]

end Serving

section Runs

variable {sb : Superblock} {fs : File} {disk : Memory} {k k' : Kernel}
  {stored : List Byte → Option (List Byte)} {filename : Memory} {i : ℕ}

/-- A mounted image of at most eight inodes, all of which are loaded. -/
theorem mirrors_mounted (hw : WellFormed sb fs) (hbs : sb.blockSize = 512)
    (hcount : sb.inodeCount ≤ 8) (hdisk : DiskHolds disk fs)
    (tab : Fin FILE_DESCRIPTOR_TAB_SIZE → FileOpen) :
    Mirrors sb fs.bytes (mounted disk tab) (storeOf sb fs.bytes) := by
  have hview := mounted_view hw.toConsistent hdisk tab
  have hinodes := hview.inodeCount
  have hinode : ∀ i < sb.inodeCount,
      (mounted disk tab).inodeTable.inode i = inodeAt sb fs.bytes i :=
    fun i hi => hview.inode_eq hw.toConsistent hdisk hbs hi (by omega)
  constructor
  case consistent => exact mounted_consistent hw hdisk hbs hcount tab
  case superblock => exact hview.superblock
  case slot =>
    intro i hi hnumber
    rw [hinodes] at hi
    rw [hinode i hi] at hnumber ⊢
    exact ⟨⟨hi, hnumber⟩, rfl⟩
  case stored =>
    intro name c
    rw [storeOf_eq_some_iff hw.names]
    constructor
    · rintro ⟨i, hi, hname, hc⟩
      refine ⟨i, hinodes ▸ hi.1, ?_⟩
      rw [hinode i hi.1]
      exact ⟨hi.2, hname, hc⟩
    · rintro ⟨i, hi, hlive⟩
      rw [hinodes] at hi
      rw [hinode i hi] at hlive
      exact ⟨i, ⟨hi, hlive.1⟩, hlive.2⟩

/-- A call of the file system in the kernel. -/
inductive KernelCall
  | fileOpen (filename : Memory)
  | fileRead (fd : ℤ) (buf : Memory) (count : ℕ)
  | fileSeek (fd : ℤ) (offset : ℕ)
  | fileClose (fd : ℤ)
  | fileRemove (filename : Memory)

/-- The kernel after a call. -/
def exec (disk : Memory) (stale : ℕ) (k : Kernel) : KernelCall → Except Fault Kernel
  | .fileOpen filename => do
    let (_, k) ← fileOpen k filename
    .ok k
  | .fileRead fd buf count => do
    let _ ← fileRead k disk stale fd buf count
    .ok k
  | .fileSeek fd offset => do
    let (_, k) ← fileSeek k fd offset
    .ok k
  | .fileClose fd => fileClose k fd
  | .fileRemove filename => do
    let (_, k) ← fileRemove k filename
    .ok k

/-- What the calls do to a store. -/
def removals (calls : List KernelCall) : List (Event (List Byte) (List Byte)) :=
  calls.flatMap fun
    | .fileRemove filename => [.erase (cut 31 filename)]
    | _ => []

/-- Descriptors are not looked at. -/
theorem Mirrors.setDescriptor {m : Memory} (h : Mirrors sb m k stored)
    (fd : Fin FILE_DESCRIPTOR_TAB_SIZE) (entry : FileOpen) :
    Mirrors sb m (k.setDescriptor fd entry) stored where
  consistent := ⟨h.consistent.inside, h.consistent.number, h.consistent.bit_iff,
    h.consistent.names⟩
  superblock := h.superblock
  slot := h.slot
  stored := h.stored

/-- Without the file in slot i. -/
theorem Mirrors.removed {m : Memory} (h : Mirrors sb m k stored)
    (hfound : FileAccess.lookup filename k.inodeTable = some i) (hremoved : Removed k i k') :
    Mirrors sb m k' (Function.update stored (cut 31 filename) none) := by
  obtain ⟨hi, hlive, hname⟩ := (h.consistent.lookup_eq_some_iff filename i).mp hfound
  have hcount := hremoved.inodeCount
  have hkept : ∀ j, (k'.inodeTable.inode j).number ≠ 0 →
      j ≠ i ∧ k'.inodeTable.inode j = k.inodeTable.inode j := by
    intro j hj
    have hji := ((hremoved.live_iff j).mp hj).1
    exact ⟨hji, hremoved.inode j hji⟩
  constructor
  case consistent =>
    exact hremoved.consistent h.consistent (h.consistent.number_eq hi hlive).2
  case superblock => rw [hremoved.superblock, h.superblock]
  case slot =>
    intro j hj hnumber
    obtain ⟨-, hsame⟩ := hkept j hnumber
    rw [hsame] at hnumber ⊢
    exact h.slot j (hcount ▸ hj) hnumber
  case stored =>
    intro name c
    by_cases hsame : name = cut 31 filename
    · rw [hsame, Function.update_self]
      refine iff_of_false (by simp) ?_
      rintro ⟨j, hj, hnumber, hjname, -⟩
      obtain ⟨hji, hinode⟩ := hkept j hnumber
      rw [hinode] at hnumber hjname
      exact hji (h.consistent.names j (hcount ▸ hj) i hi hnumber hlive (hjname.trans hname.symm))
    · rw [Function.update_of_ne hsame, h.stored]
      constructor
      · rintro ⟨j, hj, hnumber, hjname, hc⟩
        have hji : j ≠ i := by
          rintro rfl
          exact hsame (hjname.symm.trans hname)
        refine ⟨j, hcount ▸ hj, ?_⟩
        rw [hremoved.inode j hji]
        exact ⟨hnumber, hjname, hc⟩
      · rintro ⟨j, hj, hnumber, hjname, hc⟩
        obtain ⟨-, hinode⟩ := hkept j hnumber
        rw [hinode] at hnumber hjname hc
        exact ⟨j, hcount ▸ hj, hnumber, hjname, hc⟩

theorem removals_cons (call : KernelCall) (calls : List KernelCall) :
    removals (call :: calls) = removals [call] ++ removals calls := by
  simp [removals]

theorem Mirrors.exec {m : Memory} (h : Mirrors sb m k stored) {stale : ℕ} {call : KernelCall}
    (hok : exec disk stale k call = .ok k') :
    Mirrors sb m k' (replay stored (removals [call])) := by
  cases call with
  | fileOpen filename =>
    obtain ⟨⟨fd, k₁⟩, hopen, hret⟩ := bind_eq_ok hok
    cases hret
    by_cases hfd : fd = -1
    · rw [hfd] at hopen
      rw [fileOpen_refused hopen]
      exact h
    · obtain ⟨i, slot, slotsRead, -, -, -, rfl⟩ := fileOpen_eq hopen hfd
      exact h.setDescriptor i _
  | fileRead fd buf count =>
    obtain ⟨r, -, hret⟩ := bind_eq_ok hok
    cases hret
    exact h
  | fileSeek fd offset =>
    obtain ⟨⟨ret, k₁⟩, hseek, hret⟩ := bind_eq_ok hok
    cases hret
    obtain ⟨i, -, hseek⟩ := bind_eq_ok hseek
    split at hseek
    · cases hseek
      exact h.setDescriptor i _
    · cases hseek
      exact h
  | fileClose fd =>
    obtain ⟨i, -, hclose⟩ := bind_eq_ok hok
    cases hclose
    exact h.setDescriptor i _
  | fileRemove filename =>
    obtain ⟨⟨ret, k₁⟩, hremove, hret⟩ := bind_eq_ok hok
    cases hret
    obtain ⟨⟨slotsRead, hfind⟩, -⟩ := lookups_eq h.consistent.inside filename
    cases hfound : FileAccess.lookup filename k.inodeTable with
    | none =>
      rw [hfound] at hfind
      rw [fileRemove_none hfind] at hremove
      cases hremove
      -- what is not there stays away
      have hnone : stored (cut 31 filename) = none := by
        rw [h.lookup, hfound, Option.map_none]
      change Mirrors sb m k (Function.update stored (cut 31 filename) none)
      rw [← hnone, Function.update_eq_self]
      exact h
    | some i =>
      rw [hfound] at hfind
      obtain ⟨hi, hlive, -⟩ := (h.consistent.lookup_eq_some_iff filename i).mp hfound
      obtain ⟨k'', hremove', hremoved⟩ :=
        fileRemove_found hfind (h.consistent.number_eq hi hlive).1
      rw [hremove'] at hremove
      cases hremove
      exact h.removed hfound hremoved

theorem Mirrors.run {m : Memory} {stale : ℕ} {calls : List KernelCall}
    (h : Mirrors sb m k stored) (hok : calls.foldlM (ServedFiles.exec disk stale) k = .ok k') :
    Mirrors sb m k' (replay stored (removals calls)) := by
  induction calls generalizing k stored with
  | nil =>
    cases hok
    exact h
  | cons call rest ih =>
    rw [List.foldlM_cons] at hok
    obtain ⟨mid, hcall, hrest⟩ := bind_eq_ok hok
    have hnext := ih (h.exec hcall) hrest
    rw [removals_cons, replay, List.foldl_append]
    exact hnext

/-- Whatever admissible calls of the tools did to an image of at most eight inodes with blocks
of one sector, and whatever calls the kernel made since it mounted it: it serves what the
tools left, without what was removed since. -/
theorem serves_store {fs₀ : File} (hw : WellFormed sb fs₀) (hbs : sb.blockSize = 512)
    (hcount : sb.inodeCount ≤ 8) {calls : List (Call × Bool)} (h : Run sb fs₀ calls fs)
    (hdisk : DiskHolds disk fs) {tab : Fin FILE_DESCRIPTOR_TAB_SIZE → FileOpen} {stale : ℕ}
    {kernelCalls : List KernelCall}
    (hok : kernelCalls.foldlM (exec disk stale) (mounted disk tab) = .ok k) :
    Serves disk k (replay (storeOf sb fs₀.bytes) (events calls ++ removals kernelCalls)) := by
  obtain ⟨hw', hstore⟩ := run_store hw h
  have hmirrors := (mirrors_mounted hw' hbs hcount hdisk tab).run hok
  rw [hstore] at hmirrors
  rw [replay, List.foldl_append]
  exact hmirrors.serves hw' hbs hdisk

/-- The kernel opens the file of two bytes, and fails to remove another. -/
theorem serves_store_small : ∃ k, [KernelCall.fileOpen (nameOf 98), .fileRemove (nameOf 97)].foldlM
      (exec smallFileImage.bytes 0) (mounted smallFileImage.bytes closedTab) = .ok k ∧
    fileExists k (nameOf 98) = .ok true := by
  have hsome : ([KernelCall.fileOpen (nameOf 98), .fileRemove (nameOf 97)].foldlM
      (exec smallFileImage.bytes 0) (mounted smallFileImage.bytes closedTab)).toOption.isSome := by
    decide +kernel
  cases hok : [KernelCall.fileOpen (nameOf 98), .fileRemove (nameOf 97)].foldlM
      (exec smallFileImage.bytes 0) (mounted smallFileImage.bytes closedTab) with
  | error e =>
    rw [hok] at hsome
    cases hsome
  | ok k =>
    have hserves := serves_store smallImage_wellFormed rfl (by decide) smallFileImage_run
      (fun _ _ => rfl) hok
    refine ⟨k, rfl, ?_⟩
    rw [hserves.fileExists]
    decide +kernel

end Runs

end RathalOS.ServedFiles
