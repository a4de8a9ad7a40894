import RathalOS.ImageRuns
import RathalOS.Admission
import Mathlib.Algebra.BigOperators.Group.List.Basic

/-!
The order of additions. Whether a list of files can be added depends on their
names, their number and their total demand, and what the image stores afterwards
on the pairs of name and contents. Neither depends on the order, although the
inodes and blocks a file gets do.
-/
namespace RathalOS.AddOrder

open ByteMemory ByteFile CStrings Superblocks Inodes FileAccess FirstFit Histories
open Images EmptyImages AddFile AddedFiles Admission ImageRuns

/-- A name and the contents to be stored under it. -/
abbrev NewFile := Memory × List Byte

def addCall (p : NewFile) : Call := .add p.1 p.2

/-- The files are added one after the other, each successfully. -/
def allAdded (files : List NewFile) : List (Call × Bool) := files.map fun p => (addCall p, true)

def totalDemand (sb : Superblock) (files : List NewFile) : ℕ :=
  (files.map fun p => demand sb p.2.length).sum

/-- All the files can be added. -/
structure Feasible (sb : Superblock) (m : Memory) (files : List NewFile) : Prop where
  lengths : ∀ p ∈ files, p.2.length < 2 ^ 31
  names : (files.map fun p => cut 31 p.1).Nodup
  fresh : ∀ p ∈ files, storeOf sb m (cut 31 p.1) = none
  inodes : files.length ≤ freeInodes sb m
  capacity : ∀ p ∈ files, blocksFor sb p.2.length ≤ capacity sb
  room : totalDemand sb files ≤ freeBlocks sb m

section Feasibility

variable {sb : Superblock} {m : Memory} {files files' : List NewFile} {p : NewFile}

theorem totalDemand_concat (sb : Superblock) (files : List NewFile) (p : NewFile) :
    totalDemand sb (files ++ [p]) = totalDemand sb files + demand sb p.2.length := by
  simp [totalDemand]

theorem Feasible.perm (h : Feasible sb m files) (hperm : files.Perm files') :
    Feasible sb m files' where
  lengths p hp := h.lengths p (hperm.mem_iff.mpr hp)
  names := ((hperm.map _).nodup_iff).mp h.names
  fresh p hp := h.fresh p (hperm.mem_iff.mpr hp)
  inodes := by
    rw [← hperm.length_eq]
    exact h.inodes
  capacity p hp := h.capacity p (hperm.mem_iff.mpr hp)
  room := by
    have hsum : totalDemand sb files' = totalDemand sb files := (hperm.map _).sum_eq.symm
    rw [hsum]
    exact h.room

/-- One file more is feasible when it fits into what the others leave. -/
theorem feasible_concat_iff : Feasible sb m (files ++ [p]) ↔
    Feasible sb m files ∧ p.2.length < 2 ^ 31 ∧ (∀ q ∈ files, cut 31 q.1 ≠ cut 31 p.1) ∧
      storeOf sb m (cut 31 p.1) = none ∧ files.length + 1 ≤ freeInodes sb m ∧
      blocksFor sb p.2.length ≤ Admission.capacity sb ∧
      totalDemand sb files + demand sb p.2.length ≤ freeBlocks sb m := by
  have hnames : ((files ++ [p]).map fun q => cut 31 q.1).Nodup ↔
      (files.map fun q => cut 31 q.1).Nodup ∧ ∀ q ∈ files, cut 31 q.1 ≠ cut 31 p.1 := by
    rw [List.map_append, List.map_singleton, ← List.concat_eq_append, List.nodup_concat, and_comm]
    refine and_congr_right fun _ => ⟨fun h q hq heq => h ?_, fun h hmem => ?_⟩
    · exact List.mem_map.mpr ⟨q, hq, heq⟩
    · obtain ⟨q, hq, heq⟩ := List.mem_map.mp hmem
      exact h q hq heq
  have hlast : p ∈ files ++ [p] := by simp
  constructor
  · intro h
    obtain ⟨hnodup, hapart⟩ := hnames.mp h.names
    have hinodes := h.inodes
    have hroom := h.room
    rw [List.length_append, List.length_singleton] at hinodes
    rw [totalDemand_concat] at hroom
    refine ⟨?_, h.lengths p hlast, hapart, h.fresh p hlast, hinodes, h.capacity p hlast, hroom⟩
    constructor
    case lengths => exact fun q hq => h.lengths q (List.mem_append_left _ hq)
    case names => exact hnodup
    case fresh => exact fun q hq => h.fresh q (List.mem_append_left _ hq)
    case inodes => omega
    case capacity => exact fun q hq => h.capacity q (List.mem_append_left _ hq)
    case room => omega
  · intro h
    rcases h with ⟨h, hlength, hapart, hfresh, hinodes, hcapacity, hroom⟩
    constructor
    case lengths =>
      intro q hq
      rcases List.mem_append.mp hq with hq | hq
      · exact h.lengths q hq
      · rwa [List.mem_singleton.mp hq]
    case names => exact hnames.mpr ⟨h.names, hapart⟩
    case fresh =>
      intro q hq
      rcases List.mem_append.mp hq with hq | hq
      · exact h.fresh q hq
      · rwa [List.mem_singleton.mp hq]
    case inodes =>
      rw [List.length_append, List.length_singleton]
      exact hinodes
    case capacity =>
      intro q hq
      rcases List.mem_append.mp hq with hq | hq
      · exact h.capacity q hq
      · rwa [List.mem_singleton.mp hq]
    case room =>
      rw [totalDemand_concat]
      exact hroom

end Feasibility

section Runs

variable {sb : Superblock} {fs₀ fs fs' : File} {files files' : List NewFile}

theorem allAdded_concat (files : List NewFile) (p : NewFile) :
    allAdded (files ++ [p]) = allAdded files ++ [(addCall p, true)] := by
  simp [allAdded]

theorem events_allAdded (files : List NewFile) :
    events (allAdded files) = files.map fun p => .put (cut 31 p.1) p.2 := by
  simp [events, allAdded, addCall, Call.event, List.filterMap_map]

/-- After the additions a name is vacant if it was before and is not among them. -/
theorem store_vacant_iff (hw : WellFormed sb fs₀) (h : Run sb fs₀ (allAdded files) fs)
    (name : List Byte) : storeOf sb fs.bytes name = none ↔
      storeOf sb fs₀.bytes name = none ∧ ∀ q ∈ files, cut 31 q.1 ≠ name := by
  rw [(run_store hw h).2, events_allAdded, replay_eq_none_iff]
  · rw [List.forall_mem_map]
    rfl
  · rw [List.forall_mem_map]
    exact fun p _ => Option.some_ne_none p.2

/-- What decides an addition, in terms of the store and the free resources. -/
theorem admits_iff (hw : WellFormed sb fs) (filename : Memory) (n : ℕ) :
    Admits sb fs.bytes filename n ↔ storeOf sb fs.bytes (cut 31 filename) = none ∧
      0 < freeInodes sb fs.bytes ∧ blocksFor sb n ≤ capacity sb ∧
      demand sb n ≤ freeBlocks sb fs.bytes := by
  have hname : (∀ i, Live sb fs.bytes i → (inodeAt sb fs.bytes i).shownName ≠ cut 31 filename) ↔
      storeOf sb fs.bytes (cut 31 filename) = none := by
    rw [← lookup_none_iff, ← Option.isNone_iff_eq_none, ← Option.isNone_iff_eq_none,
      ← Option.not_isSome, ← Option.not_isSome, lookup_isSome_eq hw.names]
  rw [freeInodes, freeCount_pos_iff, ← hname]
  exact ⟨fun h => ⟨h.name, h.inode, h.capacity, h.room⟩,
    fun h => ⟨h.1, h.2.1, h.2.2.1, h.2.2.2⟩⟩

/-- An addition as a call of a run. -/
theorem addCall_exec (hw : WellFormed sb fs) {p : NewFile} (hlen : p.2.length < 2 ^ 31)
    {stale : Memory} {success : Bool} (h : (addCall p).exec stale fs = .ok (success, fs')) :
    (success = true ↔ Admits sb fs.bytes p.1 p.2.length) ∧ (success = true →
      freeBlocks sb fs.bytes = freeBlocks sb fs'.bytes + demand sb p.2.length ∧
      freeInodes sb fs.bytes = freeInodes sb fs'.bytes + 1) := by
  obtain ⟨outcome, fs'', log, -, hadd, hiff, hused, -⟩ :=
    addFile_succeeds_iff hw.toConsistent stale p.1 (File.ofList p.2) hlen
  rw [addCall, Call.exec, hadd, ok_bind] at h
  cases h
  simp only [decide_eq_true_eq]
  exact ⟨hiff, hused⟩

/-- Files that have all been added were feasible, and have taken what they need. -/
theorem feasible_of_run (hw : WellFormed sb fs₀) (h : Run sb fs₀ (allAdded files) fs) :
    Feasible sb fs₀.bytes files ∧
      freeBlocks sb fs₀.bytes = freeBlocks sb fs.bytes + totalDemand sb files ∧
      freeInodes sb fs₀.bytes = freeInodes sb fs.bytes + files.length := by
  induction files using List.reverseRecOn generalizing fs with
  | nil =>
    obtain rfl := run_nil h
    exact ⟨⟨by simp, by simp, by simp, by simp, by simp, by simp [totalDemand]⟩,
      by simp [totalDemand], by simp⟩
  | append_singleton files p ih =>
    rw [allAdded_concat, run_concat_iff] at h
    obtain ⟨fs₁, stale, hrun, hlen, hexec⟩ := h
    obtain ⟨hfeasible, hblocks, hinodes⟩ := ih hrun
    have hw₁ := (run_store hw hrun).1
    obtain ⟨hiff, hused⟩ := addCall_exec hw₁ hlen hexec
    obtain ⟨hvacant, -, hcapacity, hroom⟩ := (admits_iff hw₁ _ _).mp (hiff.mp rfl)
    obtain ⟨hold, hapart⟩ := (store_vacant_iff hw hrun _).mp hvacant
    obtain ⟨hblocks₁, hinodes₁⟩ := hused rfl
    rw [totalDemand_concat, List.length_append, List.length_singleton, feasible_concat_iff]
    exact ⟨⟨hfeasible, hlen, hapart, hold, by omega, hcapacity, by omega⟩, by omega, by omega⟩

/-- Adding feasible files fails for none of them. -/
theorem run_of_feasible (hw : WellFormed sb fs₀) (hf : Feasible sb fs₀.bytes files)
    {calls : List (Call × Bool)} (h : Run sb fs₀ calls fs)
    (hcalls : calls.map Prod.fst = files.map addCall) : calls = allAdded files := by
  induction files using List.reverseRecOn generalizing calls fs with
  | nil => simpa [allAdded] using hcalls
  | append_singleton files p ih =>
    obtain ⟨hfirst, hlen, hapart, hvacant, hinodes, hcapacity, hroom⟩ :=
      feasible_concat_iff.mp hf
    rw [List.map_append] at hcalls
    obtain ⟨calls, last, rfl, hinit, hlast⟩ := List.map_eq_append_iff.mp hcalls
    obtain ⟨⟨call, success⟩, rfl⟩ : ∃ e, last = [e] := by
      apply List.length_eq_one_iff.mp
      simpa using congrArg List.length hlast
    obtain rfl : call = addCall p := by simpa using hlast
    obtain ⟨fs₁, stale, hrun, -, hexec⟩ := run_concat_iff.mp h
    obtain rfl := ih hfirst hrun hinit
    have hw₁ := (run_store hw hrun).1
    obtain ⟨-, hblocks₁, hinodes₁⟩ := feasible_of_run hw hrun
    obtain ⟨hiff, -⟩ := addCall_exec hw₁ hlen hexec
    have hadmits := (admits_iff hw₁ p.1 p.2.length).mpr
      ⟨(store_vacant_iff hw hrun _).mpr ⟨hvacant, hapart⟩, by omega, hcapacity, by omega⟩
    rw [hiff.mpr hadmits, allAdded_concat]

/-- Feasible files can be added. -/
theorem exists_run (hw : WellFormed sb fs₀) (hf : Feasible sb fs₀.bytes files) (stale : Memory) :
    ∃ fs, Run sb fs₀ (allAdded files) fs := by
  induction files using List.reverseRecOn with
  | nil => exact ⟨fs₀, Run.start⟩
  | append_singleton files p ih =>
    obtain ⟨hfirst, hlen, -⟩ := feasible_concat_iff.mp hf
    obtain ⟨fs₁, hrun⟩ := ih hfirst
    obtain ⟨success, fs, hexec, -⟩ := exec_spec (run_store hw hrun).1 (addCall p) stale hlen
    have hlast : Run sb fs₀ (allAdded files ++ [(addCall p, success)]) fs :=
      Run.step stale hrun hlen hexec
    rw [run_of_feasible hw hf hlast (by simp [allAdded, Function.comp_def])] at hlast
    exact ⟨fs, hlast⟩

/-- Two images with the same names, sizes and contents, as the tools show them. -/
structure SameFiles (sb : Superblock) (fs fs' : File) : Prop where
  names : ∀ filename, (lookup filename (inodeTableOf sb fs'.bytes)).isSome =
    (lookup filename (inodeTableOf sb fs.bytes)).isSome
  sizes : ∀ filename i j, lookup filename (inodeTableOf sb fs.bytes) = some i →
    lookup filename (inodeTableOf sb fs'.bytes) = some j →
    (inodeAt sb fs'.bytes j).size = (inodeAt sb fs.bytes i).size
  reads : ∀ filename i, lookup filename (inodeTableOf sb fs.bytes) = some i →
    ∀ offset count, offset + count ≤ (inodeAt sb fs.bytes i).size.toNat →
    ∀ stale stale' dest, ∃ mem p p',
      fsRead stale filename offset count dest fs = .ok (.done, mem, fs.movedTo p) ∧
      fsRead stale' filename offset count dest fs' = .ok (.done, mem, fs'.movedTo p')

/-- The store is all that the tools show of the files. -/
theorem sameFiles_of_store (hw : WellFormed sb fs) (hw' : WellFormed sb fs')
    (h : storeOf sb fs'.bytes = storeOf sb fs.bytes) : SameFiles sb fs fs' := by
  have hstored : ∀ {fs : File}, WellFormed sb fs → ∀ {filename i},
      lookup filename (inodeTableOf sb fs.bytes) = some i →
      storeOf sb fs.bytes (cut 31 filename) =
        some (fileContents sb fs.bytes (inodeAt sb fs.bytes i)) := by
    intro fs hw filename i hfound
    obtain ⟨hlive, hname⟩ := lookup_live hfound
    exact (storeOf_eq_some_iff hw.names).mpr ⟨i, hlive, hname, rfl⟩
  have hlength : ∀ (m : Memory) (inode : Inode),
      (fileContents sb m inode).length = inode.size.toNat := by
    intro m inode
    simp [fileContents]
  constructor
  case names =>
    intro filename
    rw [lookup_isSome_eq hw.names, lookup_isSome_eq hw'.names, h]
  case sizes =>
    intro filename i j hi hj
    have hj' := hstored hw' hj
    rw [h, hstored hw hi] at hj'
    apply BitVec.eq_of_toNat_eq
    rw [← hlength, ← hlength, Option.some.inj hj']
  case reads =>
    intro filename i hi offset count hrange stale stale' dest
    have hc := hstored hw hi
    rw [← hlength fs.bytes] at hrange
    obtain ⟨p, hread⟩ := fsRead_store_range hw hc hrange stale dest
    obtain ⟨p', hread'⟩ := fsRead_store_range hw' ((congrFun h _).trans hc) hrange stale' dest
    exact ⟨_, p, p', hread, hread'⟩

/-- If files can all be added in one order they can be added in every order, and
the images agree on names, sizes and contents. -/
theorem adds_order_independent (hw : WellFormed sb fs₀) (hperm : files.Perm files')
    (h : Run sb fs₀ (allAdded files) fs) :
    (∃ fs', Run sb fs₀ (allAdded files') fs') ∧
    ∀ calls fs', Run sb fs₀ calls fs' → calls.map Prod.fst = files'.map addCall →
      calls = allAdded files' ∧ SameFiles sb fs fs' := by
  obtain ⟨hfeasible, -⟩ := feasible_of_run hw h
  have hfeasible' := hfeasible.perm hperm
  refine ⟨exists_run hw hfeasible' fun _ => 0, fun calls fs' hrun hcalls => ?_⟩
  obtain rfl := run_of_feasible hw hfeasible' hrun hcalls
  obtain ⟨hwf, hstore⟩ := run_store hw h
  obtain ⟨hwf', hstore'⟩ := run_store hw hrun
  refine ⟨rfl, sameFiles_of_store hwf hwf' ?_⟩
  rw [hstore, hstore', events_allAdded, events_allAdded]
  apply (replay_perm _ (hperm.map _) ?_).symm
  rw [List.map_map]
  exact hfeasible.names

/-- Two small files, added to the empty image in both orders. -/
theorem adds_order_independent_small : ∃ fs fs',
    Run smallSuperblock (emptyImage smallSuperblock)
      (allAdded [(nameOf 97, [1]), (nameOf 98, smallContents)]) fs ∧
    Run smallSuperblock (emptyImage smallSuperblock)
      (allAdded [(nameOf 98, smallContents), (nameOf 97, [1])]) fs' ∧
    SameFiles smallSuperblock fs fs' := by
  have hfeasible : Feasible smallSuperblock (emptyImage smallSuperblock).bytes
      [(nameOf 97, [1]), (nameOf 98, smallContents)] := by
    constructor
    case lengths => decide
    case names => decide
    case fresh => simp only [List.forall_mem_cons]; decide +kernel
    case inodes => decide +kernel
    case capacity => decide
    case room => decide +kernel
  obtain ⟨fs, hrun⟩ := exists_run smallImage_wellFormed hfeasible fun _ => 0
  obtain ⟨⟨fs', hrun'⟩, hall⟩ :=
    adds_order_independent smallImage_wellFormed (List.Perm.swap _ _ []) hrun
  exact ⟨fs, fs', hrun, hrun', (hall _ _ hrun' rfl).2⟩

end Runs

end RathalOS.AddOrder
