import RathalOS.ReadBack
import RathalOS.DeletedFiles
import RathalOS.Histories

/-!
Whole runs of the tools. An image is a store from names, as far as they are
compared, to contents. While no deletion misreads an indirect block harmfully,
every call of add_file and delete_file returns, keeps the image well formed and
acts on the store as it reports, so a name holds what the last successful call
on it left.
-/
namespace RathalOS.ImageRuns

open ByteMemory ByteFile Bitmaps CStrings Superblocks Inodes FileAccess FirstFit Ownership
open Histories Images EmptyImages AddFile DeleteFile Allocation AddedFiles ReadBack DeletedFiles

/-- The bytes of a file. -/
def fileContents (sb : Superblock) (m : Memory) (inode : Inode) : List Byte :=
  (List.range inode.size.toNat).map (fileByte sb m inode)

/-- The contents an image stores under a name. -/
def storeOf (sb : Superblock) (m : Memory) (name : List Byte) : Option (List Byte) :=
  (firstFree (fun k => !(decide ((inodeAt sb m k).number ≠ 0) &&
    decide ((inodeAt sb m k).shownName = name))) sb.inodeCount).map
    fun i => fileContents sb m (inodeAt sb m i)

section Store

variable {sb : Superblock} {m m' : Memory}

theorem storeOf_eq_some_iff (hn : NamesDistinct sb m) {name : List Byte} {c : List Byte} :
    storeOf sb m name = some c ↔
      ∃ i, Live sb m i ∧ (inodeAt sb m i).shownName = name ∧
        fileContents sb m (inodeAt sb m i) = c := by
  unfold storeOf
  rw [Option.map_eq_some_iff]
  constructor
  · intro hfound
    rcases hfound with ⟨i, hfirst, rfl⟩
    obtain ⟨hi, hmatch, -⟩ := firstFree_some hfirst
    simp only [Bool.not_eq_false', Bool.and_eq_true, decide_eq_true_eq] at hmatch
    exact ⟨i, ⟨hi, hmatch.1⟩, hmatch.2, rfl⟩
  · intro hfound
    rcases hfound with ⟨i, hi, hname, rfl⟩
    refine ⟨i, ?_, rfl⟩
    cases hfirst : firstFree (fun k => !(decide ((inodeAt sb m k).number ≠ 0) &&
        decide ((inodeAt sb m k).shownName = name))) sb.inodeCount with
    | none =>
      have hheld := firstFree_none_iff.mp hfirst i hi.1
      simp only [hname, decide_true, Bool.and_true, Bool.not_eq_true', decide_eq_false_iff_not,
        ne_eq, not_not] at hheld
      exact absurd hheld hi.2
    | some j =>
      obtain ⟨hj, hmatch, -⟩ := firstFree_some hfirst
      simp only [Bool.not_eq_false', Bool.and_eq_true, decide_eq_true_eq] at hmatch
      rw [hn i j hi ⟨hj, hmatch.1⟩ (hname.trans hmatch.2.symm)]

/-- A lookup finds a name exactly when the store holds something under it. -/
theorem lookup_isSome_eq (hn : NamesDistinct sb m) (filename : Memory) :
    (lookup filename (inodeTableOf sb m)).isSome = (storeOf sb m (cut 31 filename)).isSome := by
  rw [Bool.eq_iff_iff, Option.isSome_iff_exists, Option.isSome_iff_exists]
  constructor
  · intro hfound
    rcases hfound with ⟨i, hi⟩
    obtain ⟨hlive, hname⟩ := lookup_live hi
    exact ⟨_, (storeOf_eq_some_iff hn).mpr ⟨i, hlive, hname, rfl⟩⟩
  · intro hstored
    rcases hstored with ⟨c, hc⟩
    obtain ⟨i, hlive, hname, -⟩ := (storeOf_eq_some_iff hn).mp hc
    exact ⟨i, lookup_of_live hn hlive hname⟩

/-- A file that kept its inode and its blocks has the same contents. -/
theorem fileContents_same {j : ℕ} (h : SameFile sb m m' j) (hbs : 512 ≤ sb.blockSize)
    (hs : SizeExact sb m (inodeAt sb m j)) :
    fileContents sb m' (inodeAt sb m' j) = fileContents sb m (inodeAt sb m j) := by
  unfold fileContents
  rw [show (inodeAt sb m' j).size = (inodeAt sb m j).size by rw [h.inode]]
  apply List.map_congr_left
  intro x hx
  rw [List.mem_range] at hx
  have hk : x / sb.blockSize < blocksFor sb (inodeAt sb m j).size.toNat := by
    rw [lt_blocksFor_iff (by omega)]
    have := Nat.div_mul_le_self x sb.blockSize
    omega
  exact h.fileByte (by omega) (fileBlock_ne_zero hs hbs hk).1

/-- Two stores agree when each live file of one is a live file of the other. -/
theorem storeOf_same (hbs : 512 ≤ sb.blockSize) (hn : NamesDistinct sb m)
    (hn' : NamesDistinct sb m') (hs : ∀ j, Live sb m j → SizeExact sb m (inodeAt sb m j))
    (hlive : ∀ j, Live sb m' j ↔ Live sb m j) (hsame : ∀ j, Live sb m j → SameFile sb m m' j) :
    storeOf sb m' = storeOf sb m := by
  funext name
  apply Option.ext
  intro c
  rw [storeOf_eq_some_iff hn, storeOf_eq_some_iff hn']
  refine exists_congr fun j => ?_
  rw [hlive j]
  refine and_congr_right fun hj => ?_
  rw [fileContents_same (hsame j hj) hbs (hs j hj), (hsame j hj).inode]

/-- One more live file puts its contents under its name. -/
theorem storeOf_put (hbs : 512 ≤ sb.blockSize) (hn : NamesDistinct sb m)
    (hn' : NamesDistinct sb m') (hs : ∀ j, Live sb m j → SizeExact sb m (inodeAt sb m j)) {i : ℕ}
    (hlive : ∀ j, Live sb m' j ↔ Live sb m j ∨ j = i)
    (hsame : ∀ j, Live sb m j → SameFile sb m m' j) :
    storeOf sb m' = apply (storeOf sb m)
      (.put (inodeAt sb m' i).shownName (fileContents sb m' (inodeAt sb m' i))) := by
  have hi : Live sb m' i := (hlive i).mpr (Or.inr rfl)
  funext name
  unfold apply
  by_cases hname : name = (inodeAt sb m' i).shownName
  · rw [hname]
    simp only [Event.key, Function.update_self, Event.result]
    exact (storeOf_eq_some_iff hn').mpr ⟨i, hi, rfl, rfl⟩
  · simp only [Event.key, Function.update_of_ne hname]
    apply Option.ext
    intro d
    rw [storeOf_eq_some_iff hn, storeOf_eq_some_iff hn']
    constructor
    · intro hstored
      rcases hstored with ⟨j, hj, hjname, hjd⟩
      rcases (hlive j).mp hj with hold | rfl
      · rw [fileContents_same (hsame j hold) hbs (hs j hold)] at hjd
        rw [(hsame j hold).inode] at hjname
        exact ⟨j, hold, hjname, hjd⟩
      · exact absurd hjname.symm hname
    · intro hstored
      rcases hstored with ⟨j, hj, hjname, hjd⟩
      refine ⟨j, (hlive j).mpr (Or.inl hj), ?_, ?_⟩
      · rw [(hsame j hj).inode, hjname]
      · rw [fileContents_same (hsame j hj) hbs (hs j hj), hjd]

/-- One live file less erases its name. -/
theorem storeOf_erase (hbs : 512 ≤ sb.blockSize) (hn : NamesDistinct sb m)
    (hn' : NamesDistinct sb m') (hs : ∀ j, Live sb m j → SizeExact sb m (inodeAt sb m j)) {i : ℕ}
    (hi : Live sb m i) (hlive : ∀ j, Live sb m' j ↔ Live sb m j ∧ j ≠ i)
    (hsame : ∀ j, Live sb m j → j ≠ i → SameFile sb m m' j) :
    storeOf sb m' = apply (storeOf sb m) (.erase (inodeAt sb m i).shownName) := by
  funext name
  unfold apply
  apply Option.ext
  intro d
  by_cases hname : name = (inodeAt sb m i).shownName
  · rw [hname]
    simp only [Event.key, Function.update_self, Event.result, reduceCtorEq, iff_false]
    rw [storeOf_eq_some_iff hn']
    intro hstored
    rcases hstored with ⟨j, hj, hjname, -⟩
    obtain ⟨hj, hji⟩ := (hlive j).mp hj
    rw [(hsame j hj hji).inode] at hjname
    exact hji (hn j i hj hi hjname)
  · simp only [Event.key, Function.update_of_ne hname]
    rw [storeOf_eq_some_iff hn, storeOf_eq_some_iff hn']
    constructor
    · intro hstored
      rcases hstored with ⟨j, hj, hjname, hjd⟩
      obtain ⟨hj, hji⟩ := (hlive j).mp hj
      rw [fileContents_same (hsame j hj hji) hbs (hs j hj)] at hjd
      rw [(hsame j hj hji).inode] at hjname
      exact ⟨j, hj, hjname, hjd⟩
    · intro hstored
      rcases hstored with ⟨j, hj, hjname, hjd⟩
      have hji : j ≠ i := by
        intro heq
        rw [heq] at hjname
        exact hname hjname.symm
      refine ⟨j, (hlive j).mpr ⟨hj, hji⟩, ?_, ?_⟩
      · rw [(hsame j hj hji).inode, hjname]
      · rw [fileContents_same (hsame j hj hji) hbs (hs j hj), hjd]

/-- The contents of the file that was added. -/
theorem added_contents {stale filename : Memory} {c : List Byte} {i : ℕ} {data tables : List ℕ}
    (hzero : dataBit sb m 0 = true) (hbs : 512 ≤ sb.blockSize) (hlen : c.length < 2 ^ 31)
    (h : Added stale sb (File.ofList c) c.length filename i data tables m m') :
    fileContents sb m' (inodeAt sb m' i) = c := by
  unfold fileContents
  rw [h.size]
  apply List.ext_getElem (by simp)
  intro x hx hxc
  rw [List.getElem_map, List.getElem_range, h.fileByte hzero hbs hlen hxc,
    List.getD_eq_getElem c 0 hxc]

end Store

section Effects

variable {sb : Superblock} {fs fs' : File}

theorem storeOf_scribbled (hw : WellFormed sb fs) (h : Scribbled sb fs.bytes fs'.bytes)
    (hsize : fs.size ≤ fs'.size) : storeOf sb fs'.bytes = storeOf sb fs.bytes := by
  refine storeOf_same hw.layout.blockSize_bounds.1 hw.names (h.wellFormed hw hsize).names hw.sizes
    (fun j => and_congr_right fun hj => ?_) fun j hj => h.sameFile hw.toConsistent hj
  rw [h.inodeAt hw.layout.regions hj]

/-- Adding a file puts its contents under its name. -/
theorem storeOf_added (hw : WellFormed sb fs) {stale filename : Memory} {c : List Byte} {i : ℕ}
    {data tables : List ℕ} (hlen : c.length < 2 ^ 31) (hsize : fs.size ≤ fs'.size)
    (hnone : lookup filename (inodeTableOf sb fs.bytes) = none)
    (h : Added stale sb (File.ofList c) c.length filename i data tables fs.bytes fs'.bytes) :
    storeOf sb fs'.bytes = apply (storeOf sb fs.bytes) (.put (cut 31 filename) c) := by
  have hc := hw.toConsistent
  have hbs := hw.layout.blockSize_bounds.1
  rw [storeOf_put hbs hw.names (h.wellFormed hw hsize hlen hnone).names hw.sizes (h.live_iff hc)
    fun j hj => h.sameFile hc hj, h.name, added_contents (dataBit_zero hc) hbs hlen h]

/-- An exact deletion erases the name. -/
theorem storeOf_deleted (hw : WellFormed sb fs) {filename : Memory} {i : ℕ} {r : DeleteResult}
    (hfound : lookup filename (inodeTableOf sb fs.bytes) = some i)
    (h : DeletesExactly sb fs i r) (hw' : WellFormed sb r.fs) :
    storeOf sb r.fs.bytes = apply (storeOf sb fs.bytes) (.erase (cut 31 filename)) := by
  obtain ⟨hi, hiname⟩ := lookup_live hfound
  rw [storeOf_erase hw.layout.blockSize_bounds.1 hw.names hw'.names hw.sizes hi h.live_iff
    fun j hj hji => h.sameFile hj hji, hiname]

end Effects

/-- A call of one of the tools that change an image. -/
inductive Call
  | add (filename : Memory) (c : List Byte)
  | delete (filename : Memory)

/-- Run a call; the result is true when the tool succeeded. -/
def Call.exec (stale : Memory) : Call → File → Except Fault (Bool × File)
  | .add filename c, fs => do
    let (outcome, fs) ← addFile stale (File.ofList c) filename c.length fs
    .ok (decide (outcome = .added), fs)
  | .delete filename, fs => do
    let r ← deleteFile stale filename fs
    .ok (decide (r.outcome = .deleted), r.fs)

/-- What a successful call does to the store. -/
def Call.event : Call → Event (List Byte) (List Byte)
  | .add filename c => .put (cut 31 filename) c
  | .delete filename => .erase (cut 31 filename)

/-- The size an added file may have, and what a deletion needs to be exact. -/
def Call.Admissible (sb : Superblock) (fs : File) : Call → Prop
  | .add _ c => c.length < 2 ^ 31
  | .delete filename => ∀ i, lookup filename (inodeTableOf sb fs.bytes) = some i →
      MisreadHarmless sb fs.bytes (inodeAt sb fs.bytes i)

/-- Any number of admissible calls, with what each of them returned. -/
inductive Run (sb : Superblock) (fs₀ : File) : List (Call × Bool) → File → Prop
  | start : Run sb fs₀ [] fs₀
  | step {fs fs' : File} {calls : List (Call × Bool)} {call : Call} {success : Bool}
      (stale : Memory) (hrun : Run sb fs₀ calls fs) (hadmissible : call.Admissible sb fs)
      (hexec : call.exec stale fs = .ok (success, fs')) :
      Run sb fs₀ (calls ++ [(call, success)]) fs'

/-- The events of the calls that succeeded. -/
def events (calls : List (Call × Bool)) : List (Event (List Byte) (List Byte)) :=
  calls.filterMap fun e => if e.2 then some e.1.event else none

section Runs

variable {sb : Superblock} {fs₀ fs : File}

theorem events_concat (calls : List (Call × Bool)) (call : Call) (success : Bool) :
    events (calls ++ [(call, success)]) =
      if success then events calls ++ [call.event] else events calls := by
  cases success <;> simp [events]

theorem run_nil (h : Run sb fs₀ [] fs) : fs = fs₀ := by
  generalize hlist : ([] : List (Call × Bool)) = l at h
  cases h with
  | start => rfl
  | step => simp at hlist

/-- The last call of a run. -/
theorem run_concat_iff {calls : List (Call × Bool)} {call : Call} {success : Bool} :
    Run sb fs₀ (calls ++ [(call, success)]) fs ↔ ∃ fs₁ stale, Run sb fs₀ calls fs₁ ∧
      call.Admissible sb fs₁ ∧ call.exec stale fs₁ = .ok (success, fs) := by
  constructor
  · intro h
    generalize hlist : calls ++ [(call, success)] = l at h
    cases h with
    | start => simp at hlist
    | @step fs₁ _ calls' call' success' stale hrun hadmissible hexec =>
      obtain ⟨rfl, hlast⟩ := List.append_inj' hlist rfl
      cases hlast
      exact ⟨fs₁, stale, hrun, hadmissible, hexec⟩
  · intro h
    rcases h with ⟨fs₁, stale, hrun, hadmissible, hexec⟩
    exact Run.step stale hrun hadmissible hexec

/-- Every admissible call returns, and does to the store what it reports. -/
theorem exec_spec (hw : WellFormed sb fs) (call : Call) (stale : Memory)
    (h : call.Admissible sb fs) :
    ∃ success fs', call.exec stale fs = .ok (success, fs') ∧ WellFormed sb fs' ∧
      storeOf sb fs'.bytes =
        if success then apply (storeOf sb fs.bytes) call.event else storeOf sb fs.bytes := by
  have hc := hw.toConsistent
  cases call with
  | add filename c =>
    have hlen : c.length < 2 ^ 31 := h
    obtain ⟨-, fs', hok, hsize, hscr⟩ | ⟨-, outcome, fs', hok, hfail, hsize, hscr⟩ |
      ⟨hnone, i, data, tables, fs', hok, hsize, hadded⟩ :=
      addFile_spec hc stale filename (File.ofList c) (n := c.length) (by omega)
    · refine ⟨false, fs', ?_, hscr.wellFormed hw hsize, storeOf_scribbled hw hscr hsize⟩
      rw [Call.exec, hok]
      rfl
    · refine ⟨false, fs', ?_, hscr.wellFormed hw hsize, storeOf_scribbled hw hscr hsize⟩
      rw [Call.exec, hok, ok_bind]
      rcases hfail with rfl | rfl <;> rfl
    · refine ⟨true, fs', ?_, hadded.wellFormed hw hsize hlen hnone,
        storeOf_added hw hlen hsize hnone hadded⟩
      rw [Call.exec, hok]
      rfl
  | delete filename =>
    cases hfound : lookup filename (inodeTableOf sb fs.bytes) with
    | none =>
      obtain ⟨p, hok⟩ := deleteFile_notPresent hc hfound stale
      have hscr : Scribbled sb fs.bytes (fs.movedTo p).bytes := Scribbled.refl _ _
      refine ⟨false, fs.movedTo p, ?_, hscr.wellFormed hw (Nat.le_refl _), rfl⟩
      rw [Call.exec, hok]
      rfl
    | some i =>
      obtain ⟨r, hok, hexact, hsize, hhead⟩ := deleteFile_of_harmless hc hfound stale (h i hfound)
      have hw' := hexact.wellFormed hw (lookup_live hfound).1 hsize hhead
      refine ⟨true, r.fs, ?_, hw', storeOf_deleted hw hfound hexact hw'⟩
      rw [Call.exec, hok, ok_bind, hexact.outcome]
      rfl

/-- After a run of admissible calls the image is well formed and stores what the run left. -/
theorem run_store (hw : WellFormed sb fs₀) {calls : List (Call × Bool)} (h : Run sb fs₀ calls fs) :
    WellFormed sb fs ∧ storeOf sb fs.bytes = replay (storeOf sb fs₀.bytes) (events calls) := by
  induction h with
  | start => exact ⟨hw, rfl⟩
  | @step fs fs' calls call success stale hrun hadmissible hexec ih =>
    obtain ⟨hwf, hstore⟩ := ih
    obtain ⟨success', fs'', hok, hw', hstore'⟩ := exec_spec hwf call stale hadmissible
    rw [hexec] at hok
    obtain ⟨rfl, rfl⟩ := Prod.mk.inj (Except.ok.inj hok)
    refine ⟨hw', ?_⟩
    rw [hstore', events_concat, hstore]
    cases success with
    | false => rfl
    | true => exact (replay_concat _ _ _).symm

/-- Reading a range of a file gives that range of its contents. -/
theorem fsRead_contents (hsuper : Superblock.ofMemory fs.bytes = sb)
    (hvalid : superblockValid fs.bytes) (hr : Regions sb)
    (hcovers : sb.blockSize * (sb.datablocksStart + sb.datablockCount) ≤ fs.size) {i : ℕ}
    (hin : ∀ place, pointer sb fs.bytes (inodeAt sb fs.bytes i) place < sb.datablockCount)
    {filename : Memory} (hfound : lookup filename (inodeTableOf sb fs.bytes) = some i)
    (hs : SizeExact sb fs.bytes (inodeAt sb fs.bytes i)) {offset count : ℕ}
    (hrange : offset + count ≤ (fileContents sb fs.bytes (inodeAt sb fs.bytes i)).length)
    (stale dest : Memory) :
    ∃ p, fsRead stale filename offset count dest fs =
      .ok (.done, fun a => if a < count
        then (fileContents sb fs.bytes (inodeAt sb fs.bytes i)).getD (offset + a) 0 else dest a,
        fs.movedTo p) := by
  have hbounds := hr.blockSize_bounds
  have hlen : (fileContents sb fs.bytes (inodeAt sb fs.bytes i)).length =
      (inodeAt sb fs.bytes i).size.toNat := by
    simp [fileContents]
  -- nine tables of at most 4096 blocks of at most 8192 bytes stay below 2^31
  have hcap := mt (lt_blocksFor_iff (by omega) (4 + 9 * (sb.blockSize / 2))
    (inodeAt sb fs.bytes i).size.toNat).mpr (Nat.not_lt.mpr hs.capacity)
  have hmax : (4 + 9 * (sb.blockSize / 2)) * sb.blockSize ≤ 36868 * 8192 :=
    Nat.mul_le_mul (by omega) hbounds.2.1
  obtain ⟨p, hread⟩ := fsRead_found hsuper hvalid hr hcovers hin hfound hs stale offset count dest
    (by omega) (by omega)
  refine ⟨p, hread.trans (congrArg Except.ok (Prod.ext rfl (Prod.ext ?_ rfl)))⟩
  funext a
  by_cases ha : a < count
  · simp only [ha, if_true]
    rw [List.getD_eq_getElem _ 0 (by omega)]
    simp [fileContents]
  · simp only [ha, if_false]

/-- Reading a range of a file gives what the store holds there under its name. -/
theorem fsRead_store_range (hw : WellFormed sb fs) {filename : Memory} {c : List Byte}
    (hc : storeOf sb fs.bytes (cut 31 filename) = some c) {offset count : ℕ}
    (hrange : offset + count ≤ c.length) (stale dest : Memory) :
    ∃ p, fsRead stale filename offset count dest fs =
      .ok (.done, fun a => if a < count then c.getD (offset + a) 0 else dest a,
        fs.movedTo p) := by
  obtain ⟨i, hi, hname, rfl⟩ := (storeOf_eq_some_iff hw.names).mp hc
  exact fsRead_contents hw.superblock hw.valid hw.layout.regions hw.covers
    (fun place => hw.blocks.inRange i place hi) (lookup_of_live hw.names hi hname) (hw.sizes i hi)
    hrange stale dest

/-- Reading a whole file gives what the store holds under its name. -/
theorem fsRead_store (hw : WellFormed sb fs) {filename : Memory} {c : List Byte}
    (hc : storeOf sb fs.bytes (cut 31 filename) = some c) (stale dest : Memory) :
    ∃ p, fsRead stale filename 0 c.length dest fs =
      .ok (.done, fun a => if a < c.length then c.getD a 0 else dest a, fs.movedTo p) := by
  obtain ⟨p, hread⟩ := fsRead_store_range hw hc (Nat.le_of_eq (Nat.zero_add _)) stale dest
  simp only [Nat.zero_add] at hread
  exact ⟨p, hread⟩

/-- In every run whose deletions misread nothing harmful the image is well formed in
every state reached, a name is found exactly when the last call that succeeded on it
was an addition (or none succeeded and it was there at first), its contents are those
last added, they can be read back, and every further admissible call returns. -/
theorem run_integrity (hw : WellFormed sb fs₀) {calls : List (Call × Bool)}
    (h : Run sb fs₀ calls fs) :
    WellFormed sb fs ∧
    (∀ filename, (lookup filename (inodeTableOf sb fs.bytes)).isSome =
      match lastOn (cut 31 filename) (events calls) with
      | some e => e.result.isSome
      | none => (lookup filename (inodeTableOf sb fs₀.bytes)).isSome) ∧
    storeOf sb fs.bytes = replay (storeOf sb fs₀.bytes) (events calls) ∧
    (∀ filename c, storeOf sb fs.bytes (cut 31 filename) = some c → ∀ stale dest,
      ∃ p, fsRead stale filename 0 c.length dest fs =
        .ok (.done, fun a => if a < c.length then c.getD a 0 else dest a, fs.movedTo p)) ∧
    ∀ (call : Call) (stale : Memory), call.Admissible sb fs →
      ∃ success fs', call.exec stale fs = .ok (success, fs') := by
  obtain ⟨hwf, hstore⟩ := run_store hw h
  refine ⟨hwf, ?_, hstore, fun filename c hc => fsRead_store hwf hc, ?_⟩
  · intro filename
    rw [lookup_isSome_eq hwf.names, hstore, replay_eq]
    cases lastOn (cut 31 filename) (events calls) with
    | some e => rfl
    | none => exact (lookup_isSome_eq hw.names filename).symm
  · intro call stale hadmissible
    obtain ⟨success, fs', hok, -⟩ := exec_spec hwf call stale hadmissible
    exact ⟨success, fs', hok⟩

def smallContents : List Byte := [7, 9]

/-- The small image with a file `b` of two bytes. -/
def smallFileImage : File :=
  imageOf (addFile (fun _ => 0) (File.ofList smallContents) (nameOf 98) smallContents.length
    (emptyImage smallSuperblock))

theorem smallFileImage_found : lookup (nameOf 98)
    (inodeTableOf smallSuperblock smallFileImage.bytes) = some 1 := by
  decide +kernel

theorem smallFileImage_harmless : MisreadHarmless smallSuperblock smallFileImage.bytes
    (inodeAt smallSuperblock smallFileImage.bytes 1) := by
  have hdirect : ∀ k : Fin 9,
      indirectAt (inodeAt smallSuperblock smallFileImage.bytes 1) k = 0 := by
    decide +kernel
  apply harmless_of_direct
  intro k
  by_cases hk : k < 9
  · exact hdirect ⟨k, hk⟩
  · exact dif_neg hk

theorem smallFileImage_run : Run smallSuperblock (emptyImage smallSuperblock)
    [(.add (nameOf 98) smallContents, true)] smallFileImage := by
  have hadd : addFile (fun _ => 0) (File.ofList smallContents) (nameOf 98) smallContents.length
      (emptyImage smallSuperblock) = .ok (.added, smallFileImage) :=
    eq_of_succeeded (by decide +kernel)
  refine Run.step (fun _ => 0) Run.start (by change 2 < 2 ^ 31; decide) ?_
  rw [Call.exec, hadd]
  rfl

/-- Adding a small file to the empty image and deleting it again. -/
theorem run_integrity_small : ∃ fs,
    Run smallSuperblock (emptyImage smallSuperblock)
      [(.add (nameOf 98) smallContents, true), (.delete (nameOf 98), true)] fs ∧
    WellFormed smallSuperblock fs ∧
    (lookup (nameOf 98) (inodeTableOf smallSuperblock fs.bytes)).isSome = false := by
  obtain ⟨hw₁, -⟩ := run_store smallImage_wellFormed smallFileImage_run
  obtain ⟨r, hok, hexact, -⟩ := deleteFile_of_harmless hw₁.toConsistent smallFileImage_found
    (fun _ => 0) smallFileImage_harmless
  have hrun : Run smallSuperblock (emptyImage smallSuperblock)
      [(.add (nameOf 98) smallContents, true), (.delete (nameOf 98), true)] r.fs := by
    refine Run.step (fun _ => 0) smallFileImage_run (fun i hi => ?_) ?_
    · rw [smallFileImage_found] at hi
      cases hi
      exact smallFileImage_harmless
    · rw [Call.exec, hok, ok_bind, hexact.outcome]
      rfl
  obtain ⟨hw₂, hfind, -⟩ := run_integrity smallImage_wellFormed hrun
  refine ⟨r.fs, hrun, hw₂, ?_⟩
  rw [hfind (nameOf 98)]
  decide +kernel

/-- Deleting the large file returns true but leaves its last block marked as held
although no file owns it any more, so the image is not well formed. -/
theorem delete_large_not_wellFormed : WellFormed smallSuperblock largeImage ∧
    ∃ fs', (Call.delete (nameOf 97)).exec (fun _ => 0) largeImage = .ok (true, fs') ∧
      ∀ sb, ¬ WellFormed sb fs' := by
  have hc := largeImage_wellFormed.toConsistent
  have hfound : lookup (nameOf 97) (inodeTableOf smallSuperblock largeImage.bytes) = some 1 := by
    decide +kernel
  have hindices : indexedBy smallSuperblock largeImage.bytes
      (inodeAt smallSuperblock largeImage.bytes 1) = [1, 2, 3, 4, 5] := by
    decide +kernel
  obtain ⟨r, hok⟩ := deleteFile_total hc hfound (fun _ => 0) (by rw [hindices]; decide)
  obtain ⟨houtcome, -, -, hdel⟩ := deleteFile_ok hc hfound hok
  rw [hindices] at hdel
  refine ⟨largeImage_wellFormed, r.fs, ?_, ?_⟩
  · rw [Call.exec, hok, ok_bind, houtcome]
    rfl
  · intro sb hw
    obtain ⟨hsb, -⟩ := superblock_of_head hc.layout hdel.head hc.superblock hc.valid
    obtain rfl : smallSuperblock = sb := hsb.symm.trans hw.superblock
    have hheld : dataBit smallSuperblock r.fs.bytes 6 = true :=
      (hdel.dataBits 6 (by decide)).mpr ⟨by decide +kernel, by decide⟩
    obtain h0 | ⟨j, p, ⟨hj, hlive⟩, -⟩ := (hw.blocks.held_iff 6 (by decide)).mp hheld
    · exact absurd h0 (by decide)
    · by_cases hj1 : j = 1
      · rw [hj1, inodeAt_cleared hdel.cleared] at hlive
        exact hlive rfl
      · rw [inodeAt_congr (hdel.slots j hj hj1)] at hlive
        have hfree : ∀ j < 8, j ≠ 1 →
            (inodeAt smallSuperblock largeImage.bytes j).number = 0 := by
          decide +kernel
        exact hlive (hfree j hj hj1)

end Runs

end RathalOS.ImageRuns
